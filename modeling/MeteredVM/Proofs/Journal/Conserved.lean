import Mathlib.Algebra.BigOperators.Group.Finset.Piecewise
import Mathlib.Algebra.Ring.Nat
import MeteredVM.Proofs.Journal.Facet
import MeteredVM.Proofs.Journal.Wealth

namespace MeteredVM

def Moves (before after : Address → Nat) (source target : Address) (amount : Nat) : Prop :=
  ∀ a, after a + (if a = source then amount else 0) = before a + if a = target then amount else 0

def Burns (before after : Address → Nat) (a : Address) (amount : Nat) : Prop :=
  ∀ b, after b + (if b = a then amount else 0) = before b

section Sum

variable {ι : Type} [Fintype ι] [DecidableEq ι] {before after : ι → Nat} {amount : Nat}

theorem sum_moved {i j : ι}
    (h : ∀ k, after k + (if k = i then amount else 0) = before k + if k = j then amount else 0) :
    ∑ k, after k = ∑ k, before k := by
  have hsum := Finset.sum_congr rfl fun k (_ : k ∈ Finset.univ) => h k
  simpa only [Finset.sum_add_distrib, Finset.sum_ite_eq', Finset.mem_univ, if_true,
    Nat.add_right_cancel_iff] using hsum

theorem sum_burnt {i : ι} (h : ∀ k, after k + (if k = i then amount else 0) = before k) :
    ∑ k, after k + amount = ∑ k, before k := by
  have hsum := Finset.sum_congr rfl fun k (_ : k ∈ Finset.univ) => h k
  simpa only [Finset.sum_add_distrib, Finset.sum_ite_eq', Finset.mem_univ, if_true] using hsum

end Sum

theorem Moves.sum {before after : Address → Nat} {source target : Address} {amount : Nat}
    (h : Moves before after source target amount) : ∑ a, after a = ∑ a, before a := by
  unfold Moves at h
  exact sum_moved h

theorem Burns.sum {before after : Address → Nat} {a : Address} {amount : Nat}
    (h : Burns before after a amount) : ∑ b, after b + amount = ∑ b, before b := by
  unfold Burns at h
  exact sum_burnt h

namespace JournalEntry

/-- What the change of an entry has made of the balances, in natural numbers. A payment of an account to
itself leaves its balance as it is. -/
def Effect (e : JournalEntry) (before after : Address → Nat) : Prop :=
  match e with
  | .transferred source target value => Moves before after source target value.toNat
  | .destroyed a target _ balance =>
    if a = target then Burns before after a balance.toNat
    else Moves before after a target balance.toNat
  | _ => after = before

/-- What an account that was destroyed for its own benefit has lost. -/
def burnt : JournalEntry → Nat
  | .destroyed a target _ balance => if a = target then balance.toNat else 0
  | _ => 0

theorem Effect.sum {e : JournalEntry} {before after : Address → Nat} (h : e.Effect before after) :
    ∑ a, after a + e.burnt = ∑ a, before a := by
  cases e with
  | transferred source target value =>
    have hnone : burnt (.transferred source target value) = 0 := rfl
    rw [hnone, Nat.add_zero, Moves.sum h]
  | destroyed a target marked balance =>
    rw [Effect] at h
    rw [burnt]
    split at h
    · rename_i hself
      rw [if_pos hself, h.sum]
    · rename_i hother
      rw [if_neg hother, Nat.add_zero, h.sum]
  | loaded a | touched a | nonceRaised a | created a | slotChanged a key value | codeSet a =>
    have hsame : after = before := h
    rw [burnt, Nat.add_zero, hsame]
    exact nofun

end JournalEntry

/-- The balances that count: those of loaded accounts, else those of the database. -/
def balances (db : Database) (m : Accounts) (a : Address) : Nat :=
  (m[a]?.getD (Journal.fresh db a)).info.balance.toNat

def tally (db : Database) (s : Address → Option Word) (a : Address) : Nat :=
  ((s a).getD (Journal.fresh db a).info.balance).toNat

theorem tally_see (db : Database) (m : Accounts) :
    tally db (Facet.balance.see m) = balances db m := by
  funext a
  rw [tally, balances, Facet.see]
  cases m[a]? <;> rfl

section Wraps

variable {db : Database} {m n : Accounts} {a b : Address} {amount : Word}

namespace Accounts

/-- The account is loaded and has no room for the amount. -/
def overflows (m : Accounts) (a : Address) (amount : Word) : Bool :=
  m[a]?.any (·.info.balance.uaddOverflow amount)

/-- The account is loaded and has less than the amount. -/
def underflows (m : Accounts) (a : Address) (amount : Word) : Bool :=
  m[a]?.any (·.info.balance.usubOverflow amount)

def credited (m : Accounts) (a : Address) (amount : Word) : Accounts :=
  m.modify a fun x => { x with info := { x.info with balance := x.info.balance + amount } }

theorem underflows_credited (h : a ≠ b) (w : Word) :
    (m.credited a amount).underflows b w = m.underflows b w := by
  rw [underflows, credited, getElem?_modify, if_neg h]
  rfl

end Accounts

theorem balances_of_loaded {x : Account} (hx : m[a]? = some x) :
    balances db m a = x.info.balance.toNat := by
  rw [balances, hx]
  rfl

theorem overflows_eq_false (db : Database) (h : balances db m a + amount.toNat < 2 ^ 256) :
    m.overflows a amount = false := by
  rw [Accounts.overflows]
  cases hx : m[a]? with
  | none => rfl
  | some x =>
    rw [balances_of_loaded hx] at h
    simpa only [Option.any_some, BitVec.uaddOverflow, ge_iff_le, decide_eq_false_iff_not, not_le] using h

theorem underflows_eq_false (db : Database) (h : amount.toNat ≤ balances db m a) :
    m.underflows a amount = false := by
  rw [Accounts.underflows]
  cases hx : m[a]? with
  | none => rfl
  | some x =>
    rw [balances_of_loaded hx] at h
    simpa only [Option.any_some, BitVec.usubOverflow, decide_eq_false_iff_not, not_lt] using h

/-- What has gone from one account to another one goes back without wrapping. -/
theorem Moves.fits (h : Moves (balances db n) (balances db m) a b amount.toNat) (hab : a ≠ b) :
    m.overflows a amount = false ∧ (m.credited a amount).underflows b amount = false := by
  have ha := h a
  have hb := h b
  rw [if_pos rfl, if_neg hab] at ha
  rw [if_neg (Ne.symm hab), if_pos rfl] at hb
  have hlt : balances db n a < 2 ^ 256 := BitVec.isLt _
  refine ⟨overflows_eq_false db (by omega), ?_⟩
  rw [Accounts.underflows_credited hab]
  exact underflows_eq_false db (by omega)

theorem Burns.fits (h : Burns (balances db n) (balances db m) a amount.toNat) :
    m.overflows a amount = false := by
  have ha := h a
  rw [if_pos rfl] at ha
  have hlt : balances db n a < 2 ^ 256 := BitVec.isLt _
  exact overflows_eq_false db (by omega)

/-- Whether a sum or a difference of words wraps while an entry is undone. The amount is first added where
it came from, and then taken away where it went. -/
def undoWraps (m : Accounts) : JournalEntry → Bool
  | .transferred source target value =>
    m.overflows source value || (m.credited source value).underflows target value
  | .destroyed a target _ balance =>
    m.overflows a balance || a != target && (m.credited a balance).underflows target balance
  | _ => false

theorem exists_undo_of_wraps {e : JournalEntry} (wraps : undoWraps m e = true) :
    ∃ n, Journal.undo m e = .ok n := by
  cases e with
  | transferred | destroyed => exact ⟨_, rfl⟩
  | _ => cases wraps

/-- Nothing wraps while an entry is undone, unless an account has paid itself: then the amount is added to
a balance that it was never taken from. -/
theorem JournalEntry.Effect.of_wraps {e : JournalEntry}
    (effect : e.Effect (balances db n) (balances db m)) (wraps : undoWraps m e = true) :
    ∃ a value, e = .transferred a a value := by
  cases e with
  | transferred source target value =>
    by_cases hself : source = target
    · subst hself
      exact ⟨source, value, rfl⟩
    · obtain ⟨hover, hunder⟩ := Moves.fits effect hself
      rw [undoWraps, hover, hunder] at wraps
      cases wraps
  | destroyed a target before balance =>
    rw [Effect] at effect
    split at effect
    · rename_i hself
      rw [undoWraps, effect.fits, hself, bne_self_eq_false] at wraps
      cases wraps
    · rename_i hother
      obtain ⟨hover, hunder⟩ := effect.fits hother
      rw [undoWraps, hover, hunder, Bool.and_false] at wraps
      cases wraps
  | _ => cases wraps

end Wraps

def burnt (entries : List JournalEntry) : Nat := (entries.map JournalEntry.burnt).sum

/-- Each of the entries, the newest first, has had its effect on the balances before it, and these were
all of the database's together. -/
def Kept (db : Database) (s : Address → Option Word) : List JournalEntry → Prop
  | [] => ∑ a, tally db s a = db.wealth
  | e :: older =>
    e.Effect (tally db (Facet.balance.unwind s e)) (tally db s) ∧
      Kept db (Facet.balance.unwind s e) older

section Kept

variable {db : Database} {s : Address → Option Word} {newer older : List JournalEntry}

theorem Kept.total {entries : List JournalEntry} (h : Kept db s entries) :
    ∑ a, tally db s a + burnt entries = db.wealth := by
  induction entries generalizing s with
  | nil =>
    rw [Kept] at h
    rw [burnt, List.map_nil, List.sum_nil, Nat.add_zero, h]
  | cons e older ih =>
    have hsum := h.1.sum
    have holder := ih h.2
    simp only [burnt, List.map_cons, List.sum_cons] at holder ⊢
    omega

theorem Kept.unwindAll (h : Kept db s (newer ++ older)) :
    Kept db (Facet.balance.unwindAll s newer) older := by
  induction newer generalizing s with
  | nil => exact h
  | cons e newer ih => exact ih h.2

theorem Kept.ignored (h : Kept db s older)
    (hignores : ∀ e ∈ newer, Facet.balance.ignores e = true) : Kept db s (newer ++ older) := by
  induction newer with
  | nil => exact h
  | cons e newer ih =>
    have he := hignores e List.mem_cons_self
    have hrest := ih fun e' he' => hignores e' (List.mem_cons_of_mem e he')
    rw [List.cons_append, Kept, Facet.balance.unwind_of_ignores he]
    refine ⟨?_, hrest⟩
    cases e with
    | loaded a | destroyed a target before balance | transferred source target value => cases he
    | _ => rfl

end Kept

namespace Journal

def Exact (db : Database) (j : Journal) : Prop := Kept db (Facet.balance.see j.accounts) j.entries

variable {db : Database} {i j k l : Journal} {a source target : Address} {value : Word}
  {x : Account} {e : JournalEntry}

theorem wealth_eq_sum (j : Journal) : j.wealth db = ∑ a, balances db j.accounts a :=
  Finset.sum_congr rfl fun _ _ => rfl

theorem balances_congr (h : ∀ a, (k.view db a).balance = (j.view db a).balance) :
    balances db k.accounts = balances db j.accounts :=
  funext fun a => congrArg BitVec.toNat (h a)

theorem balance_of_rests (h : Facet.balance.Rests j k) (a : Address) :
    (k.view db a).balance = (j.view db a).balance := by
  have hview : ∀ i : Journal, (i.view db a).balance =
      (Facet.balance.see i.accounts a).getD (fresh db a).info.balance := by
    intro i
    rw [Journal.view, Facet.see]
    cases i.accounts[a]? <;> rfl
  rw [hview, hview, h.see]

theorem Exact.total (h : j.Exact db) : j.wealth db + burnt j.entries = db.wealth := by
  have htotal := Kept.total h
  rw [tally_see, ← wealth_eq_sum] at htotal
  exact htotal

theorem ofHardfork_exact (db : Database) (fork : Hardfork) : (ofHardfork fork).Exact db := by
  have hnone : (ofHardfork fork).entries = [] := rfl
  rw [Exact, hnone, Kept, tally_see, ← wealth_eq_sum, wealth_ofHardfork]

theorem Exact.rests (h : j.Exact db) (hk : Facet.balance.Rests j k) : k.Exact db := by
  obtain ⟨newer, he, hignores⟩ := hk.entries
  rw [Exact, hk.see, he]
  exact h.ignored hignores

/-- A change whose newest entry stands for what it does to balances. -/
theorem Exact.cons (h : i.Exact db) (hik : Facet.balance.Retains i k) (hij : Facet.balance.Rests i j)
    (he : k.entries = e :: j.entries)
    (effect : e.Effect (balances db i.accounts) (balances db k.accounts)) : k.Exact db := by
  rw [Exact, he, Kept, hik.unwind hij he, tally_see, tally_see, ← tally_see db j.accounts, hij.see,
    tally_see]
  exact ⟨effect, hij.see ▸ h.rests hij⟩

/-- Undoing any number of the newest entries keeps value accounted for, and takes back exactly what the
last of them has done. -/
theorem Exact.undone {newer older : List JournalEntry} {m n : Accounts} (h : j.Exact db)
    (he : j.entries = newer ++ e :: older) (hm : undoAll j.accounts newer = .ok m)
    (hn : undo m e = .ok n) : e.Effect (balances db n) (balances db m) := by
  rw [Exact, he] at h
  have heffect := h.unwindAll.1
  rwa [← Facet.balance.see_undoAll hm, ← Facet.balance.see_undo hn, tally_see, tally_see] at heffect

theorem Exact.revert {mark : Checkpoint} (h : k.Exact db) (hl : k.revert mark = .ok l) :
    l.Exact db := by
  obtain ⟨undone, he, -, hundo, -⟩ := revert_eq_ok hl
  rw [Exact, he] at h
  rw [Exact, Facet.balance.see_undoAll hundo]
  exact h.unwindAll

theorem Exact.payable (h : j.Exact db) (hfunded : db.wealth < 2 ^ 256) (source target : Address)
    (value : Word) : j.Payable db source target value := by
  have htotal := h.total
  exact payable_of_wealth (by omega) source target value

theorem Exact.look (hj : j.Exact db) (h : Look db j k) : k.Exact db := by
  have hretains : Facet.balance.Retains j k := .of_extends h.extends
  have hbalances : balances db k.accounts = balances db j.accounts :=
    balances_congr fun a => by rw [h.view]
  cases h with
  | ask lookup => exact hj.rests (.of_eq rfl rfl)
  | account absent => exact hj.cons hretains (.refl j) rfl hbalances
  | code loaded unfetched => exact hj.rests (.update j _ fun _ => rfl)
  | @slot b x key loaded absent =>
    have hupdate : Facet.balance.Rests j (j.update b fun y => { y with
        slots := y.slots.insert key (unloaded db b x key) }) := .update j b fun _ => rfl
    exact (hj.rests hupdate).rests ⟨⟨[_], rfl, fun e he => by rw [List.mem_singleton.mp he]; rfl⟩, rfl⟩

theorem Exact.looks (hj : j.Exact db) (h : Looks db j k) : k.Exact db := by
  induction h with
  | refl => exact hj
  | tail _ hlook ih => exact ih.look hlook

/-- A payment moves what is paid, if the receiver has room for it. -/
theorem moved_moves (payer : (j.accounts[source]?).isSome) (payee : (j.accounts[target]?).isSome)
    (enough : value ≤ (j.view db source).balance) (room : j.Payable db source target value) :
    Moves (balances db j.accounts) (balances db (j.moved source target value).accounts) source
      target value.toNat := by
  intro a
  have hview : ((j.moved source target value).view db a).balance =
      paidBalance source target value a (j.view db a).balance :=
    congrArg AccountView.balance (view_moved payer payee value a)
  have hle : value.toNat ≤ (j.view db source).balance.toNat := enough
  change ((j.moved source target value).view db a).balance.toNat + _ =
    (j.view db a).balance.toNat + _
  rw [hview, paidBalance]
  by_cases hs : a = source
  · subst hs
    by_cases ht : a = target
    · subst ht
      simp only [if_true, BitVec.sub_add_cancel]
    · simp only [if_true, if_neg ht, if_neg (Ne.symm ht), BitVec.toNat_sub_of_le enough]
      omega
  · by_cases ht : a = target
    · subst ht
      have hroom := room (Ne.symm hs) enough
      simp only [if_true, if_neg hs, if_neg (Ne.symm hs),
        BitVec.toNat_add_of_not_uaddOverflow (Bool.eq_false_iff.mp hroom)]
      omega
    · simp only [if_neg hs, if_neg ht, if_neg (Ne.symm hs), if_neg (Ne.symm ht)]

theorem Exact.moved (h : j.Exact db) (payer : (j.accounts[source]?).isSome)
    (payee : (j.accounts[target]?).isSome) (enough : value ≤ (j.view db source).balance)
    (room : j.Payable db source target value) : (j.moved source target value).Exact db := by
  have htouched : Facet.balance.Rests j ((j.touch source).touch target) :=
    (Facet.Rests.touch j source).trans (.touch _ target)
  exact h.cons (.of_extends (moved_extends j source target value)) htouched rfl
    (moved_moves payer payee enough room)

theorem balance_emptied (hx : j.accounts[a]? = some x) (b : Address) :
    ((j.emptied a).view db b).balance = if a = b then 0 else (j.view db b).balance := by
  rw [emptied, view_update hx]
  split <;> rfl

/-- A destruction moves the whole balance, or burns it if it is for the account's own benefit. -/
theorem destroy_effect (hx : j.accounts[a]? = some x) (payee : (j.accounts[target]?).isSome)
    (room : j.Payable db a target x.info.balance) :
    (JournalEntry.destroyed a target x.flags.destroyed x.info.balance).Effect
      (balances db j.accounts) (balances db (j.destroy a target x).accounts) := by
  have hself : (j.view db a).balance = x.info.balance := by
    rw [view_of_loaded hx]
    rfl
  rw [JournalEntry.Effect]
  split
  · rename_i hat
    subst hat
    intro b
    change ((j.destroy a a x).view db b).balance.toNat + _ = (j.view db b).balance.toNat
    rw [destroy_self, view_note, balance_emptied hx]
    by_cases hab : a = b
    · subst hab
      rw [if_pos rfl, if_pos rfl, hself]
      exact Nat.zero_add _
    · rw [if_neg hab, if_neg (Ne.symm hab), Nat.add_zero]
  · rename_i hat
    intro b
    have hloaded : (((j.emptied a).touch target).accounts[target]?).isSome := by
      rwa [loaded_touch, emptied, update, loaded_modify]
    have hother : (((j.emptied a).touch target).view db target).balance =
        (j.view db target).balance := by
      rw [balance_touch, balance_emptied hx, if_neg hat]
    change ((j.destroy a target x).view db b).balance.toNat + _ = (j.view db b).balance.toNat + _
    rw [destroy_of_ne j hat, view_note, view_rebalance hloaded]
    by_cases htb : target = b
    · subst htb
      have hroom := room hat (BitVec.le_of_eq hself.symm)
      rw [if_pos rfl, if_neg (Ne.symm hat), if_pos rfl, hother, Nat.add_zero]
      exact BitVec.toNat_add_of_not_uaddOverflow (Bool.eq_false_iff.mp hroom)
    · rw [if_neg htb, if_neg (Ne.symm htb), balance_touch, balance_emptied hx]
      by_cases hab : a = b
      · subst hab
        rw [if_pos rfl, if_pos rfl, hself]
        exact Nat.zero_add _
      · rw [if_neg hab, if_neg (Ne.symm hab)]

theorem Exact.destroy (h : j.Exact db) (hx : j.accounts[a]? = some x)
    (payee : (j.accounts[target]?).isSome) (room : j.Payable db a target x.info.balance) :
    (j.destroy a target x).Exact db := by
  have hretains : Facet.balance.Retains j (j.destroy a target x) :=
    .of_extends (destroy_extends hx target)
  have heffect := destroy_effect hx payee room
  by_cases hat : a = target
  · subst hat
    rw [destroy_self] at hretains heffect ⊢
    exact h.cons hretains (.refl j) rfl heffect
  · rw [destroy_of_ne j hat, touch_emptied] at hretains heffect ⊢
    exact h.cons hretains (.touch j target) rfl heffect

/-- A transfer moves the value, or is refused, but not for too much at the receiver. -/
theorem Exact.transfer (h : j.Exact db) (hfunded : db.wealth < 2 ^ 256) (source target : Address)
    (value : Word) :
    match Journal.transfer source target value j with
    | .ok _ k => Moves (balances db j.accounts) (balances db k.accounts) source target value.toNat
    | .error status _ => status ≠ .balanceOverflow := by
  have room := h.payable hfunded source target value
  by_cases hloaded : (j.accounts[source]?).isSome ∧ (j.accounts[target]?).isSome
  · obtain ⟨payer, payee⟩ := hloaded
    have hmove := transfer_loaded (balance?_of_loaded db payer) (balance?_of_loaded db payee) value
    split at hmove
    · rw [hmove]
      exact (by decide : Status.outOfFunds ≠ .balanceOverflow)
    · rename_i hfunds
      have enough := BitVec.not_lt.mp hfunds
      split at hmove
      · rename_i hover
        rw [room hover.1 enough] at hover
        exact absurd hover.2 Bool.false_ne_true
      · rw [hmove]
        exact moved_moves payer payee enough room
  · have hmissing : j.balance? source = none ∨ j.balance? target = none := by
      rw [not_and_or, Option.not_isSome_iff_eq_none, Option.not_isSome_iff_eq_none] at hloaded
      exact hloaded.imp (fun hs => by rw [balance?, hs]; rfl) fun ht => by rw [balance?, ht]; rfl
    obtain hrefused | ⟨k, hrefused⟩ := transfer_missing hmissing value
    · rw [hrefused]
      exact (by decide : Status.outOfFunds ≠ .balanceOverflow)
    · rw [hrefused]
      exact (by decide : Status.hostFailure ≠ .balanceOverflow)

end Journal

end MeteredVM
