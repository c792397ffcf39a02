import MeteredVM.Proofs.Journal.Conserved
import MeteredVM.Proofs.Journal.Ledger
import MeteredVM.Proofs.Session.Onward

namespace MeteredVM

open Journal

namespace Journal

variable {db : Database} {r : Rules} {i j k l : Journal}

def Sustains (db : Database) (j k : Journal) : Prop :=
  j.Exact db → k.Exact db ∧ j.entries <:+ k.entries

theorem Sustains.refl (j : Journal) : Sustains db j j := fun hj => ⟨hj, List.suffix_refl _⟩

theorem Sustains.trans (h : Sustains db i j) (h' : Sustains db j k) : Sustains db i k := by
  intro hi
  obtain ⟨hj, hij⟩ := h hi
  obtain ⟨hk, hjk⟩ := h' hj
  exact ⟨hk, hij.trans hjk⟩

theorem Sustains.rests (h : Facet.balance.Rests j k) : Sustains db j k := by
  obtain ⟨newer, he, -⟩ := h.entries
  exact fun hj => ⟨hj.rests h, newer, he.symm⟩

theorem Sustains.of_extends (h : j.Extends k) (hk : j.Exact db → k.Exact db) :
    Sustains db j k := by
  obtain ⟨newer, -, he, -⟩ := h.entries
  exact fun hj => ⟨hk hj, newer, he.symm⟩

theorem Sustains.looks (h : Looks db j k) : Sustains db j k :=
  .of_extends h.extends fun hj => hj.looks h

theorem writeSlot_sustains {a : Address} {key new : Word} {found : Loaded SlotChange}
    (h : writeSlot db a key new j = .ok found k) : Sustains db j k := by
  obtain ⟨i, x, hlooks, hx, hs, -, -, rfl⟩ := writeSlot_eq_ok h
  split
  · exact .looks hlooks
  · have hupdate : Facet.balance.Rests i
        (i.update a fun y => { y with slots := y.slots.insert key new }) := .update i a fun _ => rfl
    exact (Sustains.looks hlooks).trans (.rests (hupdate.trans (.note _ rfl)))

theorem destroy_sustains (hfunded : db.wealth < 2 ^ 256) {a target : Address} {x : Account}
    (hx : j.accounts[a]? = some x) (payee : (j.accounts[target]?).isSome) :
    Sustains db j (j.destroy a target x) :=
  .of_extends (destroy_extends hx target) fun hj =>
    hj.destroy hx payee (hj.payable hfunded a target x.info.balance)

theorem Deed.sustains (hfunded : db.wealth < 2 ^ 256) (h : Deed db r j k) : Sustains db j k := by
  cases h with
  | looks looks => exact .looks looks
  | log l => exact .rests (.of_eq rfl rfl)
  | write wrote refunded => exact (writeSlot_sustains wrote).trans (.rests (.recordRefund refunded))
  | destroy destroyed refunded =>
    obtain ⟨l, x, hlooks, hx, payee, -, rfl⟩ := selfDestruct_eq_ok destroyed
    have hdestroyed := (Sustains.looks hlooks).trans (destroy_sustains hfunded hx payee)
    split at refunded
    · exact hdestroyed.trans (.rests (.recordRefund refunded))
    · rw [refunded]
      exact hdestroyed

theorem move_sustains {p : TransferPolicy} {source target : Address} {value : Word} (hp : p.Sound)
    (hfunded : db.wealth < 2 ^ 256) (payer : (j.accounts[source]?).isSome)
    (payee : (j.accounts[target]?).isSome) :
    Sustains db j (leftBy (p.move source target value) j) := by
  intro hj
  have room := hj.payable hfunded source target value
  have hmove := hp.move payer payee room
  apply Ends.left (P := fun k : Journal => k.Exact db ∧ j.entries <:+ k.entries)
  refine (hmove.refused fun _ k hk => ?_).imp fun _ k hk => ?_
  · subst hk
    exact Sustains.rests (.touch j source) hj
  · cases hk with
    | free => exact Sustains.refl j hj
    | moved _ _ enough =>
      exact Sustains.of_extends (moved_extends j source target value)
        (fun hj => hj.moved payer payee enough room) hj

theorem Sustains.undone (h : Sustains db j.deeper k) (reverted : k.revert j.mark = .ok l) :
    Sustains db j l := by
  intro hj
  obtain ⟨hk, newer, hnewer⟩ := h (hj.rests (.of_eq rfl rfl))
  obtain ⟨undone, hundone, hlength, -⟩ := revert_eq_ok reverted
  obtain ⟨-, hentries⟩ := List.append_inj' (hnewer.trans hundone) hlength.symm
  exact ⟨hk.revert reverted, [], hentries⟩

/-- While value is accounted for, all balances together do not grow. -/
theorem Sustains.wealth_le (h : Sustains db j k) (hj : j.Exact db) :
    k.wealth db ≤ j.wealth db := by
  obtain ⟨hk, newer, hnewer⟩ := h hj
  have hjtotal := hj.total
  have hktotal := hk.total
  have hburnt : burnt k.entries = burnt newer + burnt j.entries := by
    rw [← hnewer, burnt, List.map_append, List.sum_append]
    rfl
  omega

structure Conserved (db : Database) (j : Journal) : Prop where
  /-- What is not burnt is where the database has it or has moved from there. -/
  total : j.wealth db + burnt j.entries = db.wealth
  transfer (source target : Address) (value : Word) :
    match Journal.transfer source target value j with
    | .ok _ k => Moves (balances db j.accounts) (balances db k.accounts) source target value.toNat
    | .error status _ => status ≠ .balanceOverflow
  selfDestruct {a target : Address} {found : Loaded Destruction} {k : Journal}
    (h : Journal.selfDestruct db a target j = .ok found k) :
    if a = target then
      Burns (balances db j.accounts) (balances db k.accounts) a (balances db j.accounts a) ∧
        burnt k.entries = burnt j.entries + balances db j.accounts a
    else
      Moves (balances db j.accounts) (balances db k.accounts) a target (balances db j.accounts a) ∧
        burnt k.entries = burnt j.entries
  /-- Undoing entries, the newest first, takes back exactly what each has done. -/
  undone {newer older : List JournalEntry} {e : JournalEntry} {m n : Accounts}
    (split : j.entries = newer ++ e :: older) (newerUndone : undoAll j.accounts newer = .ok m)
    (undone : undo m e = .ok n) : e.Effect (balances db n) (balances db m)
  /-- No sum or difference of words wraps then, but where an account has paid itself. -/
  wraps {newer older : List JournalEntry} {e : JournalEntry} {m : Accounts}
    (split : j.entries = newer ++ e :: older) (newerUndone : undoAll j.accounts newer = .ok m)
    (wraps : undoWraps m e = true) : ∃ a value, e = .transferred a a value

theorem Exact.conserved (h : j.Exact db) (hfunded : db.wealth < 2 ^ 256) : j.Conserved db where
  total := h.total
  transfer := h.transfer hfunded
  undone := h.undone
  wraps split newerUndone wraps := by
    obtain ⟨n, undone⟩ := exists_undo_of_wraps wraps
    exact (h.undone split newerUndone undone).of_wraps wraps
  selfDestruct {a target found k} hdestroyed := by
    obtain ⟨i, x, hlooks, hx, payee, -, rfl⟩ := selfDestruct_eq_ok hdestroyed
    have hi := h.looks hlooks
    have hbalances : balances db i.accounts = balances db j.accounts :=
      balances_congr fun a => by rw [Looks.view hlooks]
    have hself : balances db j.accounts a = x.info.balance.toNat := by
      rw [← hbalances, balances, hx]
      rfl
    have room := hi.payable hfunded a target x.info.balance
    have heffect := destroy_effect hx payee room
    have htotal := h.total
    have hktotal := (hi.destroy hx payee room).total
    rw [hbalances, JournalEntry.Effect, ← hself] at heffect
    rw [wealth_eq_sum] at htotal hktotal
    split at heffect
    · rename_i hat
      rw [if_pos hat]
      have hsum := heffect.sum
      exact ⟨heffect, by omega⟩
    · rename_i hat
      rw [if_neg hat]
      have hsum := heffect.sum
      exact ⟨heffect, by omega⟩

end Journal

namespace Executor

variable {x : Executor} {C : Set Address}

theorem conservation_law (hp : x.transfers.Sound) (hfunded : x.database.wealth < 2 ^ 256) :
    x.Law C (Sustains x.database) (Sustains x.database) where
  refl := .refl
  trans := .trans
  advance h := by
    cases h with
    | deed deed => exact deed.sustains hfunded
    | touch _ a => exact .rests (.touch _ a)
    | raise raised =>
      obtain ⟨rfl, -⟩ := raiseNonce_eq_some raised
      exact .rests (.raised _ _)
    | deeper _ => exact .rests (.of_eq rfl rfl)
    | commit committed => exact .rests (.commit committed)
    | create founded opened =>
      obtain ⟨-, rfl, -⟩ := createCheckpoint_eq_ok opened
      exact .rests (.of_deeper (.opened rfl (fun _ _ balance => balance) _))
    | setCode _ a code => exact .rests (.setCode _ a code)
    | pay payer payee paid =>
      rw [← leftBy_eq_of_ok paid]
      exact move_sustains hp hfunded payer payee
  weaken h := h
  after h h' := h.trans h'
  unpaid := by
    rintro j k ⟨a, key, new, found, wrote⟩
    exact writeSlot_sustains wrote
  refused payer payee h := by
    rw [← leftBy_eq_of_error h]
    exact move_sustains hp hfunded payer payee
  undone h reverted := h.undone reverted

/-- The payment is made, or refused for another reason than too much at the receiver, and value is
conserved either way. -/
def Pays (x : Executor) (y : EStateM Status Session Unit) (s : Session) : Prop :=
  Ends y s (fun status t => status ≠ .balanceOverflow ∧ t.journal.Conserved x.database)
    fun _ t => t.journal.Conserved x.database

section Payment

variable (hp : x.transfers.Sound) (hfunded : x.database.wealth < 2 ^ 256) {s : Session}

include hp hfunded

theorem move_pays {source target : Address} {value : Word} (hs : s.journal.Exact x.database)
    (payer : (s.journal.accounts[source]?).isSome)
    (payee : (s.journal.accounts[target]?).isSome) :
    x.Pays (Session.move x.transfers source target value) s := by
  have hleft : (leftBy (x.transfers.move source target value) s.journal).Exact x.database :=
    (move_sustains hp hfunded payer payee hs).1
  have htransfer := hs.transfer hfunded source target value
  apply Session.move_rule
  refine Ends.iff.mpr ⟨fun _ k hmove => ?_, fun status k hmove => ?_⟩
  · rw [leftBy_eq_of_ok hmove] at hleft
    exact hleft.conserved hfunded
  · rw [leftBy_eq_of_error hmove] at hleft
    refine ⟨?_, hleft.conserved hfunded⟩
    obtain hbalances | hfree := hp
    · have hrefused : Journal.transfer source target value s.journal = .error status k := by
        rw [← hmove, hbalances]
        rfl
      rw [hrefused] at htransfer
      exact htransfer
    · rw [hfree] at hmove
      cases hmove

theorem payCall_pays (hs : s.journal.Exact x.database) (r : CallRequest) :
    x.Pays (x.payCall r) s := by
  have touched : ∀ {l : Journal} {t : Session}, Looks x.database s.journal l →
      t.journal = l.touch r.target → t.journal.Exact x.database := by
    intro l t hl ht
    rw [ht]
    exact (hs.looks hl).rests (.touch _ _)
  apply payCall_rule
  · intro t ht
    exact ⟨nofun, (hs.looks ht).conserved hfunded⟩
  · intro l t hl ht
    exact ⟨nofun, (touched hl ht).conserved hfunded⟩
  · intro l t hl ht payer payee
    exact move_pays hp hfunded (touched hl ht) payer payee

end Payment

/-- What holds of the value at a point of a transaction, of payments that may be made there, and of
later points. -/
structure Conserves (x : Executor) (c : Scene) : Prop where
  here : c.session.journal.Conserved x.database
  call (r : CallRequest) : x.Pays (x.payCall r) c.session
  creation {creator address : Address} (payer : (c.session.journal.accounts[creator]?).isSome)
    (payee : (c.session.journal.accounts[address]?).isSome) (value : Word) :
    x.Pays (Session.move x.transfers creator address value) c.session
  later {d : Scene} (h : x.Reaches c d) :
    d.session.journal.wealth x.database ≤ c.session.journal.wealth x.database

/-- All balances of the database are together less than `2 ^ 256`. Then at every point of a transaction
the balances and what has been burnt in frames that were not undone are together what they were. Whether
value moves or its moving is undone, balances change by sums and differences of natural numbers, and no
payment is refused for too much at the receiver. No sum or difference of words wraps, but one: undoing a
payment of an account to itself adds the amount to a balance that still has it. Should that wrap, then
taking the amount away wraps back. -/
theorem value_conserved (hp : x.transfers.Sound) (hfunded : x.database.wealth < 2 ^ 256)
    {task : Task} {gasLimit : Nat} {b : Scene} (starts : x.Starts task gasLimit b) :
    (∀ c, x.Reaches b c → x.Conserves c) ∧
      ∀ e s, x.runTask task gasLimit b.session = .ok (e, s) →
        s.journal.Conserved x.database := by
  have law : x.Law Set.univ _ _ := conservation_law hp hfunded
  have hstart : b.session.journal.Exact x.database :=
    (ofHardfork_exact x.database x.rules.hardfork).looks starts.looks
  refine ⟨fun c hc => ?_, fun e s h => ?_⟩
  · obtain ⟨hrules, hran⟩ := law.reaches hc (Set.subset_univ _) starts.ruled
    have hexact := (law.lapses hran hstart).1
    refine ⟨hexact.conserved hfunded, payCall_pays hp hfunded hexact,
      fun payer payee value => move_pays hp hfunded hexact payer payee, fun {d} hd => ?_⟩
    have hlater := law.lapses (law.reaches hd (Set.subset_univ _) hrules).2
    exact hlater.wealth_le hexact
  · have hs := (law.runTask starts (Set.subset_univ _) h hstart).1
    exact hs.conserved hfunded

def purse : Database :=
  { Database.empty with account := fun a => if a = 1 then some { balance := 10 } else none }

theorem wealth_purse : purse.wealth = 10 :=
  Database.wealth_of_sole 1 { balance := 10 } fun _ => rfl

def payment : Executor :=
  ⟨{ tx := { caller := 1, value := 3 } }, .ofHardfork .london, purse, .balances⟩

/-- Destroys the account that runs it for its own benefit. -/
def burning : Bytes := ⟨#[0x30, 0xff]⟩

/-- What is paid is burnt, so that the payer has all that is left. -/
theorem value_conserved_burning :
    ∃ b e s, payment.Starts (.code burning ByteArray.empty) 100000 b ∧
      b.session.journal.Conserved purse ∧
      payment.runTask (.code burning ByteArray.empty) 100000 b.session = .ok (e, s) ∧
      s.journal.Conserved purse ∧ balances purse s.journal.accounts 1 = 7 ∧
      burnt s.journal.entries = 3 ∧ s.journal.wealth purse = 7 := by
  let j := leftBy (loadAll payment.database (payment.warm (some 0x0a))) (.ofHardfork .london)
  have hrun : (payment.runTask (.code burning ByteArray.empty) 100000 { journal := j }).map
      (fun p => (balances purse p.2.journal.accounts 1, burnt p.2.journal.entries)) =
        .ok (7, 3) := by
    decide +kernel
  obtain ⟨⟨e, s⟩, hrun, hends⟩ := Except.map_eq_ok hrun
  obtain ⟨hpayer, hburnt⟩ := Prod.mk.inj hends
  have starts : payment.Starts (.code burning ByteArray.empty) 100000
      ⟨maxFrames, payment.opening 100000 (.code burning ByteArray.empty), { journal := j }⟩ :=
    ⟨j, rfl, rfl⟩
  have hfunded : payment.database.wealth < 2 ^ 256 := by
    change purse.wealth < 2 ^ 256
    rw [wealth_purse]
    decide
  obtain ⟨hreached, hended⟩ := value_conserved (.inl rfl) hfunded starts
  have hs : s.journal.Conserved purse := hended e s hrun
  have htotal := hs.total
  rw [wealth_purse, hburnt] at htotal
  exact ⟨_, e, s, starts, (hreached _ .refl).here, hrun, hs, hpayer, hburnt, by omega⟩

def hoard : Database :=
  { Database.empty with
    account := fun a => if a = 1 then some { balance := BitVec.allOnes 256 } else none }

def selfPayment : Executor :=
  ⟨{ tx := { caller := 1, target := 1, value := 1 } }, .ofHardfork .london, hoard, .balances⟩

def reverting : Bytes := ⟨#[0x60, 0, 0x60, 0, 0xfd]⟩

/-- The payment is undone when the frame reverts. The sum wraps then, and the difference wraps back. -/
theorem self_payment_wraps :
    hoard.wealth < 2 ^ 256 ∧
    ∃ b c f mark e s, selfPayment.Starts (.code reverting ByteArray.empty) 100000 b ∧
      selfPayment.Reaches b c ∧ c.activity = .step f ∧ f.status = .reverted ∧
      c.session.journal.entries = [.transferred 1 1 1, .touched 1, .loaded 0x0c, .loaded 1] ∧
      mark.entries = 2 ∧ c.session.journal.accounts.overflows 1 1 = true ∧
      (c.session.journal.accounts.credited 1 1).underflows 1 1 = true ∧
      selfPayment.runTask (.code reverting ByteArray.empty) 100000 b.session = .ok (e, s) ∧
      c.session.journal.revert mark = .ok s.journal ∧
      balances hoard s.journal.accounts 1 = hoard.wealth := by
  let j := leftBy (loadAll hoard (selfPayment.warm (some 1))) (.ofHardfork .london)
  let r := selfPayment.outerCall 1 ByteArray.empty 100000
  let b : Scene := ⟨maxFrames, .callCode r reverting, { journal := j }⟩
  let start : Frame := .start (selfPayment.callInvocation r reverting) 100000
  let opening := selfPayment.openCall r (b.session.noting (.callOpened · 1 100000))
  let last (t : Session) := Machine.runFor (selfPayment.host (selfPayment.hostWithin 1024)) 3 ⟨start, t⟩
  have hfound : (opening >>= fun p => (last p.2).map fun m =>
      (p.1.toOption.map (·.entries), m.frame.status, m.world.journal.entries,
        m.world.journal.accounts.overflows 1 1,
        (m.world.journal.accounts.credited 1 1).underflows 1 1)) =
      .ok (some 2, .reverted, [.transferred 1 1 1, .touched 1, .loaded 0x0c, .loaded 1], true,
        true) := by
    decide +kernel
  have hleft : (selfPayment.runTask (.code reverting ByteArray.empty) 100000 b.session).map
      (balances hoard ·.2.journal.accounts 1) = .ok (BitVec.allOnes 256).toNat := by
    decide +kernel
  obtain ⟨⟨opened, t⟩, hopened, hlast⟩ := Except.bind_eq_ok hfound
  obtain ⟨m, hran, hends⟩ := Except.map_eq_ok hlast
  simp only [Prod.mk.injEq] at hends
  obtain ⟨hmark, hstatus, hentries, hover, hunder⟩ := hends
  cases opened with
  | error status => cases hmark
  | ok mark =>
    have hsize : reverting.size ≠ 0 := by decide
    have starts : selfPayment.Starts (.code reverting ByteArray.empty) 100000 b := ⟨j, rfl, rfl⟩
    have hreached : selfPayment.Reaches b ⟨1024, .step m.frame, m.world⟩ :=
      .head (.openCall hopened hsize) (reaches_of_runFor hran)
    have hended : m.frame.status ≠ .running := by
      rw [hstatus]
      decide
    have hfailed : m.frame.status.isOk = false := by
      rw [hstatus]
      rfl
    obtain ⟨⟨e, s⟩, hanswer, hback⟩ := Except.map_eq_ok hleft
    have hreverted := callCode_reverts hopened hsize hran hended hfailed (starts.leaves hanswer)
    have hwealth : hoard.wealth = (BitVec.allOnes 256).toNat :=
      Database.wealth_of_sole 1 { balance := BitVec.allOnes 256 } fun _ => rfl
    rw [hwealth]
    exact ⟨BitVec.isLt _, b, _, m.frame, mark, e, s, starts, hreached, rfl, hstatus, hentries,
      Option.some.inj hmark, hover, hunder, hanswer, hreverted, hback⟩

end Executor

end MeteredVM
