import MeteredVM.Proofs.Gas.Storage
import MeteredVM.Proofs.Journal.Mends
import MeteredVM.Proofs.Session.Create
import MeteredVM.Proofs.Session.Deed
import MeteredVM.Proofs.Session.Frugal

namespace MeteredVM

open Journal Relation

namespace Journal

variable {db : Database} {r : Rules} {i j k : Journal} {m n gas : Nat} {e : Fault}

def ceiling (j : Journal) (refunds : Nat) : Nat := j.refund.natAbs + Price.mostRefund * refunds

theorem ceiling_mono (j : Journal) (h : m ≤ n) : j.ceiling m ≤ j.ceiling n :=
  Nat.add_le_add_left (Nat.mul_le_mul_left _ h) _

theorem ceiling_congr (h : k.refund = j.refund) (n : Nat) : k.ceiling n = j.ceiling n := by
  rw [ceiling, ceiling, h]

theorem ceiling_add (h : k.ceiling m ≤ j.ceiling n) (o : Nat) :
    k.ceiling (m + o) ≤ j.ceiling (n + o) := by
  unfold ceiling at h ⊢
  rw [Nat.mul_add, Nat.mul_add]
  omega

def Overruns (j : Journal) (refunds : Nat) (e : Fault) : Prop :=
  e = .overflow ∧ 2 ^ 63 ≤ j.ceiling refunds

theorem Overruns.of_ceiling (h : k.Overruns m e) (hle : k.ceiling m ≤ j.ceiling n) :
    j.Overruns n e :=
  ⟨h.1, Nat.le_trans h.2 hle⟩

theorem recordRefund_overruns {amount : Int} (h : j.recordRefund amount = .error e)
    (hle : amount.natAbs ≤ Price.mostRefund) : j.Overruns 1 e := by
  refine ⟨recordRefund_error h, ?_⟩
  have hadd := Except.map_eq_error h
  have hmin : Int64.minValue.toInt = -2 ^ 63 := by decide
  have hmax : Int64.maxValue.toInt = 2 ^ 63 - 1 := by decide
  unfold Counter.add at hadd
  rw [hmin, hmax] at hadd
  split at hadd
  · cases hadd
  · unfold ceiling
    omega

structure Steady (j k : Journal) : Prop where
  extended : j.Extends k
  refund : k.refund = j.refund

theorem Steady.refl (j : Journal) : j.Steady j := ⟨.refl j, rfl⟩

theorem Steady.looks (h : Looks db j k) : j.Steady k := ⟨h.extends, h.others.2.2⟩

theorem Steady.log (j : Journal) (l : Log) : j.Steady (j.log l) := ⟨log_extends j l, rfl⟩

theorem Steady.trans (h : i.Steady j) (h' : j.Steady k) : i.Steady k :=
  ⟨h.extended.trans h'.extended, h'.refund.trans h.refund⟩

theorem Alters.steady {α : Type} {y : Loading α} {a : α} (hy : Alters db y j)
    (h : y j = .ok a k) : j.Steady k := by
  obtain ⟨i, hlooks, hi⟩ := hy
  rw [h] at hi
  obtain rfl | hchange := hi
  · exact .looks hlooks
  · exact (Steady.looks hlooks).trans ⟨hchange.extends, hchange.refund⟩

theorem Wrote.steady (h : Wrote db j k) : j.Steady k := by
  obtain ⟨a, key, new, found, hwrote⟩ := h
  exact (writeSlot_alters a key new j).steady hwrote

structure Modest (j k : Journal) : Prop where
  extended : j.Extends k
  ceiling : k.ceiling 0 ≤ j.ceiling 1

theorem Steady.modest (h : j.Steady k) : j.Modest k := by
  refine ⟨h.extended, ?_⟩
  rw [ceiling_congr h.refund]
  exact j.ceiling_mono (Nat.zero_le 1)

theorem Modest.refl (j : Journal) : j.Modest j := (Steady.refl j).modest

theorem Steady.refunded {amount : Int} (h : i.Steady j) (recorded : j.recordRefund amount = .ok k)
    (hle : amount.natAbs ≤ Price.mostRefund) : i.Modest k := by
  refine ⟨h.extended.trans (recordRefund_extends recorded), ?_⟩
  have hcounter : k.refund = j.refund + amount := by rw [recordRefund_eq_ok recorded]
  unfold ceiling
  rw [hcounter, h.refund]
  omega

theorem Deed.modest (h : Deed db r j k) : j.Modest k := by
  cases h with
  | looks looks => exact (Steady.looks looks).modest
  | log l => exact (Steady.log j l).modest
  | write wrote refunded =>
    have hsteady : j.Steady _ := (writeSlot_alters _ _ _ j).steady wrote
    exact hsteady.refunded refunded (Price.natAbs_slotRefund_le _ _)
  | destroy destroyed refunded =>
    have hsteady : j.Steady _ := (selfDestruct_alters _ _ j).steady destroyed
    split at refunded
    · exact hsteady.refunded refunded Price.natAbs_selfDestructRefund_le
    · subst refunded
      exact hsteady.modest

/-- What a frame leaves that was given gas and has some of it left: changes that can be undone, with
no more refunds than the gas that is gone was enough for, and one. -/
structure Covered (j : Journal) (gasLimit : Nat) (gas : Gas) (k : Journal) : Prop where
  mends : j.Mends k
  ceiling : k.ceiling gas.remaining ≤ j.ceiling (gasLimit + 1)
  limit : gas.remaining ≤ gas.limit

end Journal

namespace Executor

variable {x : Executor} {inner : Option (Host Session)} {m n : Machine Session} {i : Invocation}
  {s t : Session}

section Steps

theorem muted_acts_steady (h : (x.host inner).muted.Acts i s t) :
    s.journal.Steady t.journal := by
  induction h with
  | refl => exact .refl _
  | tail _ hact ih =>
    obtain hlooks | ⟨l, hl⟩ := muted_act hact
    · exact ih.trans (.looks hlooks)
    · rw [hl]
      exact ih.trans (.log _ l)

/-- What a step makes of the journal: a change with at most one refund, or what a nested frame makes
of it. -/
inductive Moves (x : Executor) (inner : Option (Host Session)) (m : Machine Session) :
    Except Fault (Machine Session) → Prop
  | alone {n : Machine Session} (modest : m.world.journal.Modest n.world.journal) :
      Moves x inner m (.ok n)
  | overruns {e : Fault} (overruns : m.world.journal.Overruns 1 e) : Moves x inner m (.error e)
  | nests {r : Request} {t : Machine Session} {y : Except Fault (Machine Session)}
      (asking : m.Asking (x.host inner) r t) (steady : m.world.journal.Steady t.world.journal)
      (served : t.Served (x.host inner) True r y) : Moves x inner m y

def Confines (m : Machine Session) (e : Ending) (n : Machine Session) : Prop :=
  match e with
  | .status _ => m.world.journal.Modest n.world.journal
  | .fault e => m.world.journal.Overruns 1 e

theorem moves_of_calm (hcalm : ∀ op ∈ Opcode.ofByte? m.frame.nextByte, op.isCalm = true)
    (solid : m.frame.Solid) : x.Moves inner m (m.step (x.host inner)) := by
  have hmuted : m.step (x.host inner).muted = m.step (x.host inner) := by
    rw [Machine.step_eq, Machine.step_eq, Machine.execute_muted hcalm]
  have hsteps : m.Steps (x.host inner).muted True (m.Asking (x.host inner).muted)
      (m.step (x.host inner).muted) := Machine.step_steps fun _ => solid
  rw [hmuted] at hsteps
  generalize m.step (x.host inner) = y at hsteps
  cases hsteps with
  | goes follows => exact .alone (muted_acts_steady follows.world).modest
  | ends follows ended => exact .alone (muted_acts_steady follows.world).modest
  | @asks r t asking follows asked =>
    have hserve : Instruction.serve (x.host inner).muted r =
        Instruction.serve (x.host inner) r := by
      cases r <;> rfl
    rw [hserve]
    refine .nests ((Machine.asking_congr rfl).mp asking) (muted_acts_steady follows.world) ?_
    exact Machine.serve_served (fun _ => (follows.frame.solid trivial).1) asked.fits
  | outOfRange loose => exact absurd trivial loose
  | refund fails =>
    obtain ⟨-, amount, w, hfault⟩ := fails
    cases hfault

theorem moves_of_ends {op : Opcode} (hop : Opcode.ofByte? m.frame.nextByte = some op)
    (hrun : ∀ s, Ends (op.run (x.host inner)) s (Confines s) fun _ n =>
      s.world.journal.Modest n.world.journal) :
    x.Moves inner m (m.step (x.host inner)) := by
  have hends : Ends (Machine.execute (x.host inner) (some op)) m.passed (Confines m.passed)
      fun _ n => m.passed.world.journal.Modest n.world.journal := by
    refine execute_ends (E := Confines) (Q := fun s n => s.world.journal.Modest n.world.journal)
      (fun s e n hs he => ?_) (fun s n hs hn => ?_) (Modest.refl _) hrun
    · unfold Confines at he ⊢
      rwa [← hs.2]
    · rwa [← hs.2]
  rw [Machine.step_eq, hop]
  simp only [Machine.settle]
  split
  · rename_i hok
    exact .alone (hends.ok hok)
  · rename_i hstatus
    have hmodest : Confines _ (.status _) _ := hends.error hstatus
    exact .alone hmodest
  · rename_i hfault
    have hoverruns : Confines _ (.fault _) _ := hends.error hfault
    exact .overruns hoverruns

theorem slotStore_confined :
    Ends (Instruction.slotStore (x.host inner)) m (Confines m) fun _ n =>
      m.world.journal.Modest n.world.journal := by
  apply slotStore_rule
  · exact fun s f => Modest.refl _
  · exact fun n hlooks => (Steady.looks hlooks).modest
  · exact fun n _ hwrote => hwrote.steady.modest
  · intro n found fault hwrote hfault
    have hoverruns := recordRefund_overruns hfault (Price.natAbs_slotRefund_le _ _)
    exact hoverruns.of_ceiling (Nat.le_of_eq (ceiling_congr hwrote.steady.refund 1))
  · exact fun n hdeed => hdeed.modest

theorem selfDestruct_confined :
    Ends (Instruction.selfDestruct (x.host inner)) m (Confines m) fun _ n =>
      m.world.journal.Modest n.world.journal := by
  apply Ends.imp (Q := fun _ _ => False) ?_ fun _ _ hnever => hnever.elim
  apply selfDestruct_rule
  · exact fun s f => Modest.refl _
  · exact fun n hlooks => (Steady.looks hlooks).modest
  · intro n a target found fault hdestroyed hfault
    have hsteady : m.world.journal.Steady _ := (selfDestruct_alters _ _ _).steady hdestroyed
    have hoverruns := recordRefund_overruns hfault Price.natAbs_selfDestructRefund_le
    exact hoverruns.of_ceiling (Nat.le_of_eq (ceiling_congr hsteady.refund 1))
  · exact fun s n hdeed => hdeed.modest

theorem step_moves (solid : m.frame.Solid) : x.Moves inner m (m.step (x.host inner)) := by
  cases hop : Opcode.ofByte? m.frame.nextByte with
  | none => exact moves_of_calm (fun op hop' => by rw [hop] at hop'; cases hop') solid
  | some op =>
    cases hcalm : op.isCalm with
    | true =>
      refine moves_of_calm (fun op' hop' => ?_) solid
      rw [hop] at hop'
      cases hop'
      exact hcalm
    | false =>
      cases op with
      | slotStore => exact moves_of_ends hop fun s => slotStore_confined
      | selfDestruct => exact moves_of_ends hop fun s => selfDestruct_confined
      | _ => cases hcalm

end Steps

end Executor

/-- How far the refund counter can get by the end of the frame. The step that ends it may refund
without a charge. -/
def Machine.reach (m : Machine Session) : Nat :=
  m.world.journal.ceiling (m.frame.gas.remaining + if m.frame.status = .running then 1 else 0)

theorem Machine.reach_of_running {m : Machine Session} (running : m.frame.status = .running) :
    m.reach = m.world.journal.ceiling (m.frame.gas.remaining + 1) := by
  rw [reach, if_pos running]

theorem Machine.reach_of_ended {m : Machine Session} (ended : m.frame.status ≠ .running) :
    m.reach = m.world.journal.ceiling m.frame.gas.remaining := by
  rw [reach, if_neg ended, Nat.add_zero]

theorem Machine.reach_le (m : Machine Session) :
    m.reach ≤ m.world.journal.ceiling (m.frame.gas.remaining + 1) := by
  apply ceiling_mono
  split <;> omega

theorem Frame.Resumes.gas {f : Frame} {left : Nat} {y : Except Fault Frame}
    (hy : f.Resumes True left y) (hmax : f.gas.remaining + left ≤ Amount.max) :
    ∃ g, y = .ok g ∧ g.gas.remaining ≤ f.gas.remaining + left := by
  cases hy with
  | goes follows => exact ⟨_, rfl, follows.paid⟩
  | outOfRange loose => exact absurd trivial loose
  | overflow large => exact absurd hmax (Nat.not_le_of_lt large)

namespace Executor

variable {x : Executor} {inner : Option (Host Session)} {m n t : Machine Session}

/-- The changes of nested frames can be undone, and their gas bounds how far the refund counter can
get. -/
structure Covers (x : Executor) (inner : Option (Host Session)) : Prop where
  call {r : CallRequest} {s : Session} (hgas : r.gasLimit ≤ Amount.max) :
    Yields (x.call inner r) s (s.journal.Overruns (r.gasLimit + 1)) fun reply t =>
      s.journal.Covered r.gasLimit reply.gas t.journal
  create {r : CreateRequest} {s : Session} (hgas : r.gasLimit ≤ Amount.max) :
    Yields (x.create inner r) s (s.journal.Overruns (r.gasLimit + 1)) fun reply t =>
      s.journal.Covered r.gasLimit reply.gas t.journal

/-- A frame goes on with what a nested one has left of its gas. -/
theorem Covers.resumed {j : Journal} {f : Frame} {gasLimit : Nat} {gas : Gas} {w : Session}
    {y : Except Fault Frame} (hcovered : j.Covered gasLimit gas w.journal)
    (hleft : gas.remaining ≤ gasLimit) (hmax : gasLimit + f.gas.remaining ≤ Amount.max)
    (hy : f.Resumes True gas.remaining y) :
    ∃ n : Machine Session, (y.map fun f => (⟨f, w⟩ : Machine Session)) = .ok n ∧
      j.Mends n.world.journal ∧
        n.world.journal.ceiling n.frame.gas.remaining ≤
          j.ceiling (gasLimit + 1 + f.gas.remaining) := by
  obtain ⟨g, rfl, hgas⟩ := hy.gas (by omega)
  refine ⟨⟨g, w⟩, rfl, hcovered.mends, ?_⟩
  refine Nat.le_trans (ceiling_mono _ ?_) (ceiling_add hcovered.ceiling f.gas.remaining)
  dsimp only
  omega

theorem Covers.served {r : Request} {y : Except Fault (Machine Session)} (hx : x.Covers inner)
    (hh : (x.host inner).Frugal) (hmax : r.gasLimit + t.frame.gas.remaining ≤ Amount.max)
    (hy : t.Served (x.host inner) True r y) :
    (∃ n, y = .ok n ∧ t.world.journal.Mends n.world.journal ∧
      n.world.journal.ceiling n.frame.gas.remaining ≤
        t.world.journal.ceiling (r.gasLimit + 1 + t.frame.gas.remaining)) ∨
      ∃ e, y = .error e ∧ t.world.journal.Overruns (r.gasLimit + 1) e := by
  have hr : r.gasLimit ≤ Amount.max := by omega
  cases hy with
  | call answered resumed =>
    exact .inl (Covers.resumed ((hx.call hr).ok answered) (hh.call answered) hmax resumed)
  | create answered resumed =>
    exact .inl (Covers.resumed ((hx.create hr).ok answered) (hh.create answered) hmax resumed)
  | callFails failed => exact .inr ⟨_, rfl, (hx.call hr).error failed⟩
  | createFails failed => exact .inr ⟨_, rfl, (hx.create hr).error failed⟩

theorem Covers.step (hx : x.Covers inner) (hh : (x.host inner).Frugal) (solid : m.frame.Solid)
    (running : m.frame.status = .running) (hmax : m.frame.gas.remaining ≤ Amount.max) :
    (∀ n, m.step (x.host inner) = .ok n →
      m.world.journal.Mends n.world.journal ∧ n.reach ≤ m.reach) ∧
      ∀ e, m.step (x.host inner) = .error e →
        m.world.journal.Overruns (m.frame.gas.remaining + 1) e := by
  have hmoves : x.Moves inner m (m.step (x.host inner)) := step_moves solid
  have hspends : ∀ n, m.step (x.host inner) = .ok n → m.Spends True 1 n := fun n hn =>
    Machine.step_spends hh (fun _ => solid) hn
  rw [Machine.reach_of_running running]
  generalize m.step (x.host inner) = y at hmoves hspends
  cases hmoves with
  | @alone n modest =>
    refine ⟨fun _ heq => ?_, fun e heq => by cases heq⟩
    cases heq
    have hn := hspends n rfl
    refine ⟨.of_extends modest.extended, ?_⟩
    have hone : n.world.journal.ceiling m.frame.gas.remaining ≤
        m.world.journal.ceiling (m.frame.gas.remaining + 1) := by
      have hadd := ceiling_add modest.ceiling m.frame.gas.remaining
      rwa [Nat.zero_add, Nat.add_comm 1] at hadd
    refine Nat.le_trans ?_ hone
    by_cases hrun : n.frame.status = .running
    · rw [Machine.reach_of_running hrun]
      exact ceiling_mono _ (hn.spent hrun).paid
    · rw [Machine.reach_of_ended hrun]
      exact ceiling_mono _ hn.follows.paid
  | overruns overruns =>
    refine ⟨fun n heq => (by cases heq), fun _ heq => ?_⟩
    cases heq
    exact overruns.of_ceiling (ceiling_mono _ (by omega))
  | @nests r t y asking steady served =>
    have hpaid := asking.paid
    have hsame := ceiling_congr steady.refund
    obtain ⟨n, rfl, hmends, hceiling⟩ | ⟨e, rfl, hoverruns⟩ := hx.served hh (by omega) served
    · refine ⟨fun _ heq => ?_, fun e heq => by cases heq⟩
      cases heq
      refine ⟨.trans (.of_extends steady.extended) hmends, ?_⟩
      have hadd := ceiling_add hceiling 1
      rw [hsame] at hadd
      exact Nat.le_trans n.reach_le (Nat.le_trans hadd (ceiling_mono _ (by omega)))
    · refine ⟨fun n heq => (by cases heq), fun _ heq => ?_⟩
      cases heq
      refine hoverruns.of_ceiling ?_
      rw [hsame]
      exact ceiling_mono _ (by omega)

end Executor

end MeteredVM
