import MeteredVM.Proofs.Journal.Refund
import MeteredVM.Proofs.Session.Course

namespace MeteredVM

open Journal Price

def TransferPolicy.Quiet (p : TransferPolicy) : Prop :=
  ∀ source target value (j : Journal), j.Calm (leftBy (p.move source target value) j)

theorem TransferPolicy.balances_quiet : balances.Quiet := Calm.transfer

theorem TransferPolicy.free_quiet : free.Quiet := fun _ _ _ => Calm.refl

theorem TransferPolicy.denied_quiet : denied.Quiet := fun _ _ _ => Calm.refl

theorem TransferPolicy.failing_quiet (s : Status) : (failing s).Quiet := fun _ _ _ => Calm.refl

namespace Journal

variable {r : Rules} {tier : NetTier} {db : Database} {i j k l : Journal}

structure Recoverable (db : Database) (j k : Journal) : Prop where
  slots : Facet.slots.Retains j k
  destroyed : Facet.destroyed.Retains j k
  faithful (h : j.Faithful db) : k.Faithful db

def excess (r : Rules) (tier : NetTier) (db : Database) (j : Journal) : Int :=
  j.refund - j.owed r tier db

structure Accounted (r : Rules) (tier : NetTier) (db : Database) (j k : Journal) : Prop
    extends Recoverable db j k where
  excess (h : j.Faithful db) : k.excess r tier db = j.excess r tier db

theorem Recoverable.refl (j : Journal) : Recoverable db j j := ⟨.refl j, .refl j, id⟩

theorem Recoverable.trans (h : Recoverable db i j) (h' : Recoverable db j k) :
    Recoverable db i k :=
  ⟨h.slots.trans h'.slots, h.destroyed.trans h'.destroyed, fun hi => h'.faithful (h.faithful hi)⟩

theorem Recoverable.of_extends (h : j.Extends k) (hk : j.Faithful db → k.Faithful db) :
    Recoverable db j k :=
  ⟨.of_extends h, .of_extends h, hk⟩

theorem Recoverable.looks (h : Looks db j k) : Recoverable db j k :=
  .of_extends h.extends fun hj => hj.looks h

theorem Accounted.refl (j : Journal) : Accounted r tier db j j := ⟨.refl j, fun _ => rfl⟩

theorem Accounted.trans (h : Accounted r tier db i j) (h' : Accounted r tier db j k) :
    Accounted r tier db i k :=
  ⟨h.toRecoverable.trans h'.toRecoverable, fun hi =>
    (h'.excess (h.faithful hi)).trans (h.excess hi)⟩

theorem Accounted.looks (h : Looks db j k) : Accounted r tier db j k := by
  refine ⟨.looks h, fun hj => ?_⟩
  rw [Journal.excess, Journal.excess, Looks.owed_eq h hj, h.others.2.2]

theorem Accounted.of_rests (hslots : Facet.slots.Rests j k) (hdestroyed : Facet.destroyed.Rests j k)
    (hfaithful : j.Faithful db → k.Faithful db) (hrefund : k.refund = j.refund) :
    Accounted r tier db j k := by
  refine ⟨⟨hslots.retains, hdestroyed.retains, hfaithful⟩, fun _ => ?_⟩
  rw [Journal.excess, Journal.excess, owed_of_rests hslots hdestroyed, hrefund]

theorem Calm.accounted (h : j.Calm k) : Accounted r tier db j k :=
  .of_rests h.slots h.destroyed (fun hj => hj.rests h.records h.created) h.refund

/-- A change is accounted for together with what is recorded for it. -/
theorem Recoverable.accounted {amount : Int} (h : Recoverable db j k) (hrefund : k.refund = j.refund)
    (howed : j.Faithful db → k.owed r tier db = j.owed r tier db + amount)
    (recorded : k.recordRefund amount = .ok l) : Accounted r tier db j l := by
  have hslots : Facet.slots.Rests k l := .recordRefund recorded
  have hdestroyed : Facet.destroyed.Rests k l := .recordRefund recorded
  have hcreated : Facet.created.Rests k l := .recordRefund recorded
  have hledger := recordRefund_ledger recorded
  have hl : Recoverable db k l :=
    ⟨hslots.retains, hdestroyed.retains, fun hk => hk.rests (.of_rests hslots hledger) hcreated⟩
  refine ⟨h.trans hl, fun hj => ?_⟩
  have hcounter : l.refund = k.refund + amount := by rw [recordRefund_eq_ok recorded]
  rw [Journal.excess, Journal.excess, owed_of_rests hslots hdestroyed, howed hj, hcounter, hrefund]
  ring

/-- A write can be undone, and it changes what the counter stands for by its refund. -/
theorem writeSlot_recoverable {a : Address} {key new : Word} {found : Loaded SlotChange}
    (metered : netTier? r = some tier) (h : writeSlot db a key new j = .ok found k) :
    Recoverable db j k ∧ k.refund = j.refund ∧
      (j.Faithful db → k.owed r tier db = j.owed r tier db + slotRefund r found.value) := by
  obtain ⟨i, x, hlooks, hx, hs, -, -, hk⟩ := writeSlot_eq_ok h
  have hchange := fun hj : j.Faithful db => hj.change_eq h
  by_cases hsame : found.value.present = new
  · rw [if_pos hsame] at hk
    subst hk
    refine ⟨.looks hlooks, hlooks.others.2.2, fun hj => ?_⟩
    rw [Looks.owed_eq hlooks hj, slotRefund_eq metered, hchange hj, hsame, netRefund, if_pos rfl,
      Int.add_zero]
  · rw [if_neg hsame] at hk
    subst hk
    have hwritten : Recoverable db i (i.written a key found.value.present new) := by
      refine .of_extends (Change.slot hx hs new).extends fun hi => ?_
      have hupdate : Facet.created.Rests i
          (i.update a fun y => { y with slots := y.slots.insert key new }) :=
        .update i a fun _ => rfl
      exact hi.rests (.of_ledger rfl fun hi => hi.written hx hs new) (hupdate.trans (.note _ rfl))
    refine ⟨(Recoverable.looks hlooks).trans hwritten, hlooks.others.2.2, fun hj => ?_⟩
    rw [owed_written hx hs, Looks.owed_eq hlooks hj, slotRefund_eq metered, netRefund_eq, hchange hj]
    ring

theorem Deed.accounted (metered : netTier? r = some tier) (h : Deed db r j k) :
    Accounted r tier db j k := by
  cases h with
  | looks looks => exact .looks looks
  | log l => exact (Calm.log j l).accounted
  | write wrote refunded =>
    obtain ⟨hrecoverable, hrefund, howed⟩ := writeSlot_recoverable metered wrote
    exact hrecoverable.accounted hrefund howed refunded
  | @destroy a target found i k destroyed refunded =>
    obtain ⟨l, x, hlooks, hx, -, hagain, rfl⟩ := selfDestruct_eq_ok destroyed
    have hmarks : Recoverable db l (l.destroy a target x) := by
      refine .of_extends (destroy_extends hx target) fun hl => ?_
      exact hl.rests (Change.destroy hx target).records (.destroy rfl (fun _ _ _ => rfl) l)
    have hrecoverable := (Recoverable.looks hlooks).trans hmarks
    have hrefund : (l.destroy a target x).refund = j.refund :=
      (destroy_refund l a target x).trans hlooks.others.2.2
    rw [hagain] at refunded
    split at refunded
    · rename_i hpays
      simp only [Bool.and_eq_true, Bool.not_eq_true'] at hpays
      refine hrecoverable.accounted hrefund (fun hj => ?_) refunded
      rw [owed_destroy hx, Looks.owed_eq hlooks hj, hpays.2, markRefund, hpays.1]
      rfl
    · rename_i hnone
      subst refunded
      refine ⟨hrecoverable, fun hj => ?_⟩
      have hzero : (if x.flags.destroyed = true then 0 else markRefund r) = 0 := by
        unfold markRefund
        split
        · rfl
        · rename_i hunmarked
          rw [if_pos (by simpa [hunmarked] using hnone)]
      rw [Journal.excess, Journal.excess, hrefund, owed_destroy hx, Looks.owed_eq hlooks hj, hzero,
        Int.add_zero]

theorem opened_accounted {a : Address} (ha : (j.accounts[a]?).isSome)
    (hempty : ∀ key, db.slot a key = 0) : Accounted r tier db j.deeper (j.opened a) := by
  have hslots : Facet.slots.Rests j.deeper (j.opened a) :=
    .of_deeper (.opened rfl (fun _ _ _ => rfl) j)
  have hdestroyed : Facet.destroyed.Rests j.deeper (j.opened a) :=
    .of_deeper (.opened rfl (fun _ _ _ => rfl) j)
  have hcreated : ∀ b, Facet.created.see (j.opened a).accounts b = some true →
      Facet.created.see j.accounts b = some true ∨ ∀ key, db.slot b key = 0 := by
    intro b hb
    by_cases hab : a = b
    · subst hab
      exact .inr hempty
    · have horigin : ((j.opened a).view db b).origin = _ := origin_opened ha b
      rw [if_neg hab] at horigin
      have hsame : ((j.opened a).view db b).created = (j.view db b).created :=
        congrArg (·.2.2) horigin
      rw [see_created_iff db, hsame, ← see_created_iff] at hb
      exact .inl hb
  have hrefund : (j.opened a).refund = j.refund := by
    rw [opened, touch_refund]
    rfl
  have hfaithful : j.deeper.Faithful db → (j.opened a).Faithful db := fun hj =>
    hj.records (.of_rests hslots (opened_ledger j a)) hcreated
  exact .of_rests hslots hdestroyed hfaithful hrefund

/-- Going back to a checkpoint takes back what the counter has come to stand for since. -/
theorem Recoverable.undone (h : Recoverable db j.deeper k) (reverted : k.revert j.mark = .ok l) :
    Accounted r tier db j l := by
  obtain ⟨hslots, hentries⟩ := h.slots.revert reverted
  obtain ⟨hdestroyed, -⟩ := h.destroyed.revert reverted
  obtain ⟨-, -, -, -, hrefund, -⟩ := revert_eq_ok reverted
  have hfaithful : j.Faithful db → l.Faithful db := fun hj =>
    (h.faithful (hj.rests (Calm.deeper j).records (Calm.deeper j).created)).revert reverted
  refine ⟨⟨⟨[], hentries, hslots⟩, ⟨[], hentries, hdestroyed⟩, hfaithful⟩, fun _ => ?_⟩
  have howed : l.owed r tier db = j.owed r tier db := by
    rw [owed, owed, restorations, restorations, hslots, hdestroyed, hentries]
  rw [Journal.excess, Journal.excess, howed, hrefund]
  rfl

structure Backed (r : Rules) (tier : NetTier) (db : Database) (j : Journal) : Prop where
  /-- One clear refund for every cleared slot, one refund for every account marked for destruction,
  and what restoring slots has paid back. -/
  exact : j.refund = clearRefund r * j.cleared.card + markRefund r * j.marked.card +
    j.restorations tier db
  restorations : 0 ≤ j.restorations tier db
  least : clearRefund r * j.cleared.card + markRefund r * j.marked.card ≤ j.refund
  nonneg : 0 ≤ j.refund

theorem Accounted.backed {fork : Hardfork} (metered : netTier? r = some tier)
    (h : Accounted r tier db (ofHardfork fork) j) : j.Backed r tier db := by
  have hstart := ofHardfork_faithful db fork
  have hexcess := h.excess hstart
  have hexact := (h.faithful hstart).owed_eq r tier
  have hrestored : 0 ≤ j.restorations tier db := restored_nonneg metered _ _
  have hclears : 0 ≤ clearRefund r * (j.cleared.card : Int) :=
    Int.mul_nonneg (clearRefund_nonneg r) (Int.natCast_nonneg _)
  have hmarks : 0 ≤ markRefund r * (j.marked.card : Int) :=
    Int.mul_nonneg (markRefund_nonneg r) (Int.natCast_nonneg _)
  have hnone : (ofHardfork fork).excess r tier db = 0 := by
    rw [Journal.excess, owed_ofHardfork]
    rfl
  rw [hnone, Journal.excess, hexact] at hexcess
  exact ⟨by omega, hrestored, by omega, by omega⟩

end Journal

namespace Executor

variable {x : Executor} {tier : NetTier} {C : Set Address}

/-- Every change is accounted for while no account with storage in the database is created. -/
theorem refund_law (metered : netTier? x.rules = some tier) (quiet : x.transfers.Quiet)
    (hC : ∀ a ∈ C, ∀ key, x.database.slot a key = 0) :
    x.Law C (Accounted x.rules tier x.database) (Recoverable x.database) where
  refl := .refl
  trans := .trans
  advance h := by
    cases h with
    | deed deed => exact deed.accounted metered
    | touch _ a => exact (Calm.touch _ a).accounted
    | raise raised => exact (Calm.raiseNonce raised).accounted
    | deeper _ => exact (Calm.deeper _).accounted
    | commit committed => exact (Calm.commit committed).accounted
    | create founded opened =>
      obtain ⟨-, rfl, y, hy, -⟩ := createCheckpoint_eq_ok opened
      exact opened_accounted (Option.isSome_of_eq_some hy) (hC _ founded)
    | setCode _ a code => exact (Calm.setCode _ a code).accounted
    | pay payer payee paid =>
      rw [← leftBy_eq_of_ok paid]
      exact (quiet _ _ _ _).accounted
  weaken h := h.toRecoverable
  after h h' := h.toRecoverable.trans h'
  unpaid := by
    rintro j k ⟨a, key, new, found, wrote⟩
    exact (writeSlot_recoverable metered wrote).1
  refused {j _ source target value _} _ _ h := by
    have haccounted : Accounted x.rules tier x.database j _ := (quiet source target value j).accounted
    rw [← leftBy_eq_of_error h]
    exact haccounted.toRecoverable
  undone h reverted := h.undone reverted

/-- The report of a successful transaction has the refund counter as it is. -/
theorem report_refund {e : Ended} {s : Session} {report : Report} {accounts : Accounts}
    {events : List FrameEvent} (h : x.conclude e s = .ok ⟨.ok (report, accounts), events⟩)
    (success : e.status.isOk = true) : report.refund = s.journal.refund.toNat := by
  unfold conclude at h
  dsimp only at h
  split at h
  · cases h
  · split at h
    · cases h
    · obtain ⟨report', hreport, h⟩ := Except.bind_eq_ok h
      cases h
      obtain ⟨used, -, hused⟩ := Except.bind_eq_ok hreport
      cases hused
      exact if_pos success

/-- At every point of a transaction under net metering that creates no account with storage in the
database, the refund counter is at least what the cleared slots and the accounts marked for destruction
stand for, and what it is besides has been paid back for restoring slots. A write that its frame could
not pay for counts when the frame is undone. -/
theorem refund_counter_backed (metered : netTier? x.rules = some tier) (quiet : x.transfers.Quiet)
    {task : Task} {gasLimit : Nat} {b : Scene} (starts : x.Starts task gasLimit b)
    (empty : ∀ a ∈ x.founded b, ∀ key, x.database.slot a key = 0) :
    (∀ c, x.Reaches b c → c.session.journal.Backed x.rules tier x.database ∨
        c.Lapsed x.database (Backed x.rules tier x.database)) ∧
      ∀ e s, x.runTask task gasLimit b.session = .ok (e, s) →
        s.journal.Backed x.rules tier x.database ∧
        ∀ report accounts events, x.conclude e s = .ok ⟨.ok (report, accounts), events⟩ →
          e.status.isOk = true → (report.refund : Int) = s.journal.refund := by
  have law := refund_law metered quiet empty
  have hstart := law.looks starts.looks
  refine ⟨fun c hc => ?_, fun e s h => ?_⟩
  · obtain ⟨-, hc | ⟨hover, j, hj, hwrote⟩⟩ := law.reaches hc subset_rfl starts.ruled
    · exact .inl ((hstart.trans hc).backed metered)
    · exact .inr ⟨hover, j, (hstart.trans hj).backed metered, hwrote⟩
  · have hs := (hstart.trans (law.runTask starts subset_rfl h)).backed metered
    refine ⟨hs, fun report accounts events hreport success => ?_⟩
    rw [report_refund hreport success]
    exact Int.toNat_of_nonneg hs.nonneg

/-- A transaction under the rules of London on an empty database. -/
def barren : Executor := ⟨{}, .ofHardfork .london, .empty, .balances⟩

/-- Sets a slot to one and back to zero. -/
def restoring : Bytes := ⟨#[0x60, 1, 0x60, 0, 0x55, 0x60, 0, 0x60, 0, 0x55]⟩

/-- The transaction at its start, at its end, and its report. The refund is what the write paid back
that restored the slot. -/
theorem refund_counter_backed_restoring :
    ∃ b e s report accounts events, barren.Starts (.code restoring ByteArray.empty) 100000 b ∧
      b.session.journal.Backed (.ofHardfork .london) ⟨100, 2900⟩ .empty ∧
      barren.runTask (.code restoring ByteArray.empty) 100000 b.session = .ok (e, s) ∧
      s.journal.Backed (.ofHardfork .london) ⟨100, 2900⟩ .empty ∧ s.journal.refund = 19900 ∧
      barren.conclude e s = .ok ⟨.ok (report, accounts), events⟩ ∧
      (report.refund : Int) = s.journal.refund := by
  let j := leftBy (loadAll barren.database (barren.warm (some 0x0a))) (.ofHardfork .london)
  have hrun : (barren.runTask (.code restoring ByteArray.empty) 100000 { journal := j }).map
      (fun p => (p.1.status.isOk, p.2.journal.refund,
        (barren.conclude p.1 p.2).map (·.result.isOk))) = .ok (true, 19900, .ok true) := by
    decide +kernel
  obtain ⟨⟨e, s⟩, hrun, hends⟩ := Except.map_eq_ok hrun
  obtain ⟨success, hends⟩ := Prod.mk.inj hends
  obtain ⟨hrefund, hreport⟩ := Prod.mk.inj hends
  obtain ⟨⟨result, events⟩, hconclude, hresult⟩ := Except.map_eq_ok hreport
  cases result with
  | error why => cases hresult
  | ok result =>
    obtain ⟨report, accounts⟩ := result
    have starts : barren.Starts (.code restoring ByteArray.empty) 100000
        ⟨maxFrames, barren.opening 100000 (.code restoring ByteArray.empty), { journal := j }⟩ :=
      ⟨j, rfl, rfl⟩
    have metered : netTier? barren.rules = some ⟨100, 2900⟩ := by decide
    obtain ⟨hreached, hended⟩ :=
      refund_counter_backed metered TransferPolicy.balances_quiet starts fun _ _ _ => rfl
    have hstart := (hreached _ .refl).resolve_right fun ⟨⟨f, hf, _⟩, _⟩ => Activity.noConfusion hf
    obtain ⟨hend, hsame⟩ := hended e s hrun
    exact ⟨_, e, s, report, accounts, events, starts, hstart, hrun, hend, hrefund, hconclude,
      hsame _ _ _ hconclude success⟩

end Executor

end MeteredVM
