import MeteredVM.Proofs.Session.Act

namespace MeteredVM

open Relation

namespace Journal

inductive Deed (db : Database) (r : Rules) (j : Journal) : Journal → Prop
  | looks {k : Journal} (looks : Looks db j k) : Deed db r j k
  | log (l : Log) : Deed db r j (j.log l)
  | write {a : Address} {key new : Word} {found : Loaded SlotChange} {i k : Journal}
      (wrote : writeSlot db a key new j = .ok found i)
      (refunded : i.recordRefund (Price.slotRefund r found.value) = .ok k) : Deed db r j k
  | destroy {a target : Address} {found : Loaded Destruction} {i k : Journal}
      (destroyed : selfDestruct db a target j = .ok found i)
      (refunded : if !r.has .eip3529 && !found.value.again then
        i.recordRefund Price.selfDestructRefund = .ok k else k = i) : Deed db r j k

abbrev Deeds (db : Database) (r : Rules) : Journal → Journal → Prop := ReflTransGen (Deed db r)

end Journal

def Frame.Stays (f g : Frame) : Prop := g.pc = f.pc ∧ g.invocation = f.invocation

theorem Frame.Stays.trans {f g k : Frame} (h : f.Stays g) (h' : g.Stays k) : f.Stays k :=
  ⟨h'.1.trans h.1, h'.2.trans h.2⟩

def Local.Mild {α : Type} (y : Local α) : Prop :=
  ∀ f, Ends y f (fun e _ => ∃ s, e = .status s) fun _ g => f.Stays g

namespace Local

theorem pop_mild (n : Nat) : Mild (pop n) := by
  intro f
  simp only [Ends, pop]
  cases f.stack.popN n with
  | ok p => exact ⟨rfl, rfl⟩
  | error s => exact ⟨s, rfl⟩

theorem pop1_mild : Mild pop1 := fun f => Ends.bind (pop_mild 1 f) fun _ _ hg => .pure hg

theorem pop2_mild : Mild pop2 := fun f => Ends.bind (pop_mild 2 f) fun _ _ hg => .pure hg

theorem ensure_mild (condition : Bool) (s : Status) : Mild (ensure condition s) := by
  intro f
  unfold ensure
  split
  · exact .pure ⟨rfl, rfl⟩
  · exact .throw ⟨s, rfl⟩

theorem mayWrite_mild : Mild mayWrite := fun f => ensure_mild (!f.invocation.isStatic) _ f

theorem sentry_mild : Mild Instruction.sentry :=
  fun f => ensure_mild (!(f.rules.hasSentry && f.gas.remaining ≤ Price.sentry)) _ f

end Local

def Machine.Stays {σ : Type} (m n : Machine σ) : Prop := m.frame.Stays n.frame ∧ n.world = m.world

theorem Machine.Stays.refl {σ : Type} (m : Machine σ) : m.Stays m := ⟨⟨rfl, rfl⟩, rfl⟩

namespace Exec

variable {σ α β : Type} {m s : Machine σ} {E : Ending → Machine σ → Prop}
  {Q : β → Machine σ → Prop}

theorem here_ends {y : Local α} (hy : y.Mild) (hs : m.Stays s)
    (hE : ∀ status f, E (.status status) ⟨f, m.world⟩) :
    Ends (here y) s E fun _ n => m.Stays n := by
  apply here_rule
  refine ((hy s.frame).refused fun e f he => ?_).imp fun _ f hf => ⟨hs.1.trans hf, hs.2⟩
  obtain ⟨status, rfl⟩ := he
  rw [hs.2]
  exact hE status f

theorem charge_ends {cost : Nat} (hE : E (.status .outOfGas) s) :
    Ends (here (Local.charge cost)) s E fun _ n => s.Stays n := by
  simp only [Ends, here, Local.charge]
  cases s.frame.gas.charge? cost with
  | some gas => exact ⟨⟨rfl, rfl⟩, rfl⟩
  | none => exact hE

theorem get_bind {k : Frame → Exec σ β} (h : Ends (k s.frame) s E Q) :
    Ends (here get >>= k) s E Q := h

theorem rules_bind {k : Rules → Exec σ β} (h : Ends (k s.frame.rules) s E Q) :
    Ends (here Local.rules >>= k) s E Q := h

theorem ask_ends {q : Query σ α} (hE : ∀ e w, q s.world = .error e w →
      E (.status .hostFailure) { s with world := w }) :
    Ends (ask q) s E fun a n => q s.world = .ok a n.world ∧ n.frame = s.frame := by
  simp only [Ends, ask]
  cases hq : q s.world with
  | ok a w => exact ⟨rfl, rfl⟩
  | error e w => exact hE e w hq

theorem refund_ends {h : Host σ} {amount : Int}
    (hE : ∀ fault, h.refund amount s.world = .error fault → E (.fault fault) s) :
    Ends (Instruction.refund h amount) s E fun _ n =>
      h.refund amount s.world = .ok n.world ∧ n.frame = s.frame := by
  simp only [Ends, Instruction.refund, nested]
  cases hr : h.refund amount s.world with
  | ok w => exact ⟨rfl, rfl⟩
  | error fault => exact hE fault hr

end Exec

def Host.muted {σ : Type} (h : Host σ) : Host σ :=
  { h with
    writeSlot := fun _ _ _ => throw {}
    selfDestruct := fun _ _ => throw {}
    refund := fun _ w => .ok w }

def Opcode.isCalm : Opcode → Bool
  | slotStore | selfDestruct => false
  | _ => true

section Muted

variable {σ : Type} {h : Host σ} {op : Opcode}

theorem Opcode.run_muted (hop : op.isCalm = true) : op.run h.muted = op.run h := by
  cases op <;> first | rfl | cases hop

/-- What a frame asks for depends on nothing of the host but what it tells before a call. -/
theorem Opcode.request?_congr {h' : Host σ} (hh : h'.existence = h.existence) :
    op.request? h' = op.request? h := by
  cases op <;> simp only [request?, Instruction.call, Instruction.callCode,
    Instruction.delegateCall, Instruction.staticCall, Instruction.callWith, hh]

theorem Machine.execute_muted {op? : Option Opcode} (hop : ∀ op ∈ op?, op.isCalm = true) :
    execute h.muted op? = execute h op? := by
  cases op? with
  | none => rfl
  | some op => simp only [execute, Opcode.run_muted (hop op rfl)]

theorem Machine.asking_congr {h' : Host σ} (hh : h'.existence = h.existence) {s t : Machine σ}
    {r : Request} : s.Asking h' r t ↔ s.Asking h r t := by
  simp only [Machine.Asking, Machine.Opens, Opcode.request?_congr hh]

end Muted

namespace Machine

variable {σ : Type} {h : Host σ} {m n : Machine σ}

/-- A frame goes on with its code in the world that the nested one has left. -/
theorem Served.resumes {P : Prop} {r : Request} {y : Except Fault (Machine σ)}
    (hy : m.Served h P r y) (hn : y = .ok n) :
    h.after m.world r = .ok n.world ∧ n.frame.invocation = m.frame.invocation := by
  cases hy with
  | call answered resumed | create answered resumed =>
    cases resumed with
    | goes follows =>
      cases hn
      refine ⟨?_, follows.invocation⟩
      simp only [Host.after, answered, Except.map]
    | outOfRange loose => cases hn
    | overflow large => cases hn
  | callFails failed => cases hn
  | createFails failed => cases hn

/-- A step uses the host, or has a nested frame run, and goes on with the same code. -/
theorem step_ran (hn : m.step h = .ok n) : n.frame.invocation = m.frame.invocation ∧
    (h.Acts m.frame.invocation m.world n.world ∨
      ∃ r t, m.Asking h r t ∧ h.after t.world r = .ok n.world) := by
  have hsteps : m.Steps h False (m.Asking h) (m.step h) := step_steps False.elim
  rw [hn] at hsteps
  generalize hy : Except.ok n = y at hsteps
  cases hsteps with
  | goes follows | ends follows ended =>
    cases hy
    exact ⟨follows.frame.invocation, .inl follows.world⟩
  | @asks r t asking follows asked =>
    have hserved : t.Served h False r (t.settle (Instruction.serve h r)) :=
      serve_served False.elim False.elim
    obtain ⟨ran, hinvocation⟩ := hserved.resumes hy.symm
    exact ⟨hinvocation.trans follows.frame.invocation, .inr ⟨r, t, asking, ran⟩⟩
  | outOfRange loose => cases hy
  | refund fails => cases hy

theorem step_invocation (hn : m.step h = .ok n) : n.frame.invocation = m.frame.invocation :=
  (step_ran hn).1

/-- A step that asks for a nested frame is the serving of the request. -/
theorem Asking.step_eq {r : Request} (asking : m.Asking h r n) :
    m.step h = n.settle (Instruction.serve h r) := by
  obtain ⟨op, x, hop, hx, hasked⟩ := asking
  rw [Machine.step_eq, hop]
  apply settle_congr
  have hrun : execute h (some op) = (do
      Exec.here (Local.charge op.info.gas)
      Instruction.nest h x) := by
    rw [← Opcode.run_eq_nest hx]
    rfl
  rw [hrun, Instruction.nest, ← bind_assoc]
  exact Exec.bind_ok hasked

/-- After a step that asks for a nested frame, the world is that which the nested frame has left. -/
theorem Asking.ran {r : Request} {t : Machine σ} (asking : m.Asking h r t) (stepped : m.step h = .ok n) :
    h.after t.world r = .ok n.world := by
  have hserved : t.Served h False r (t.settle (Instruction.serve h r)) :=
    serve_served False.elim False.elim
  exact (hserved.resumes (asking.step_eq.symm.trans stepped)).1

theorem settle_ends {y : Exec σ Unit} {E : Ending → Machine σ → Prop} {Q : Unit → Machine σ → Prop}
    (hy : Ends y m E Q) (hn : m.settle y = .ok n) :
    Q () n ∨ ∃ s k, E (.status s) k ∧ n = { k with frame := { k.frame with status := s } } := by
  simp only [settle] at hn
  split at hn
  · rename_i hrun
    cases hn
    exact .inl (hy.ok hrun)
  · rename_i hrun
    cases hn
    exact .inr ⟨_, _, hy.error hrun, rfl⟩
  · cases hn

end Machine

def Journal.Wrote (db : Database) (j k : Journal) : Prop :=
  ∃ a key new found, Journal.writeSlot db a key new j = .ok found k

namespace Executor

variable {x : Executor} {inner : Option (Host Session)} {m n : Machine Session} {i : Invocation}
  {s t : Session}

theorem load_error {α : Type} {y : Loading α} {e : Unavailable}
    (hy : Journal.Alters x.database y s.journal) (h : Session.load y s = .error e t) :
    Journal.Looks x.database s.journal t.journal := by
  obtain ⟨i, hlooks, hi⟩ := hy
  simp only [Session.load] at h
  split at h
  · cases h
  · rename_i hload
    rw [hload] at hi
    cases h
    rw [hi]
    exact hlooks

theorem load_ok {α : Type} {y : Loading α} {a : α} (h : Session.load y s = .ok a t) :
    y s.journal = .ok a t.journal := by
  simp only [Session.load] at h
  split at h
  · rename_i hload
    cases h
    exact hload
  · cases h

/-- What a step leaves that is not carried to its end: a frame that can not pay for a write has made
it already. -/
def Leaves (x : Executor) (m : Machine Session) (e : Ending) (n : Machine Session) : Prop :=
  match e with
  | .fault _ => True
  | .status s =>
    Journal.Deeds x.database m.frame.rules m.world.journal n.world.journal ∨
      s = .outOfGas ∧ m.frame.Stays n.frame ∧
        Journal.Wrote x.database m.world.journal n.world.journal

theorem Leaves.of_world {s : Status} (h : n.world = m.world) : x.Leaves m (.status s) n := by
  left
  rw [h]

theorem Leaves.of_stays {s : Machine Session} {e : Ending} (hs : m.Stays s) (h : x.Leaves s e n) :
    x.Leaves m e n := by
  obtain ⟨hf, hw⟩ := hs
  cases e with
  | fault fault => trivial
  | status status =>
    have hrules : s.frame.rules = m.frame.rules := congrArg Invocation.rules hf.2
    rw [Leaves, hw, hrules] at h
    exact h.imp_right fun ⟨hstatus, hstays, hwrote⟩ => ⟨hstatus, hf.trans hstays, hwrote⟩

theorem host_refund {amount : Int} (h : (x.host inner).refund amount s = .ok t) :
    s.journal.recordRefund amount = .ok t.journal := by
  obtain ⟨j, hj, rfl⟩ := Except.map_eq_ok h
  exact hj

theorem host_refund_error {amount : Int} {fault : Fault}
    (h : (x.host inner).refund amount s = .error fault) :
    s.journal.recordRefund amount = .error fault :=
  Except.map_eq_error h

/-- A write is refused, or fails, or it is made, and then it is not paid for, or its refund is recorded
if the counter has room for it. -/
theorem slotStore_rule {E : Ending → Machine Session → Prop} {Q : Unit → Machine Session → Prop}
    (unchanged : ∀ s f, E (.status s) ⟨f, m.world⟩)
    (failed : ∀ n : Machine Session,
      Journal.Looks x.database m.world.journal n.world.journal → E (.status .hostFailure) n)
    (unpaid : ∀ n : Machine Session, m.frame.Stays n.frame →
      Journal.Wrote x.database m.world.journal n.world.journal → E (.status .outOfGas) n)
    (overflows : ∀ (n : Machine Session) found fault,
      Journal.Wrote x.database m.world.journal n.world.journal →
        n.world.journal.recordRefund (Price.slotRefund m.frame.rules found) = .error fault →
          E (.fault fault) n)
    (written : ∀ n : Machine Session,
      Journal.Deed x.database m.frame.rules m.world.journal n.world.journal → Q () n) :
    Ends (Instruction.slotStore (x.host inner)) m E Q := by
  apply Ends.bind (Exec.here_ends Local.mayWrite_mild (.refl m) unchanged)
  intro _ s₁ h₁
  apply Ends.bind (Exec.here_ends Local.pop2_mild h₁ unchanged)
  rintro ⟨key, new⟩ s₂ h₂
  apply Ends.bind (Exec.here_ends Local.sentry_mild h₂ unchanged)
  rintro _ s₃ ⟨hf₃, hw₃⟩
  apply Exec.get_bind
  refine Ends.bind (Exec.ask_ends fun e w hfailed => failed _ ?_) ?_
  · rw [hw₃] at hfailed
    exact load_error (Journal.writeSlot_alters _ key new _) hfailed
  rintro found s₄ ⟨asked, hf₄⟩
  rw [hw₃] at asked
  rw [← hf₄] at hf₃
  have hwrote := load_ok asked
  have hrules : s₄.frame.rules = m.frame.rules := congrArg Invocation.rules hf₃.2
  apply Exec.rules_bind
  rw [hrules]
  apply Ends.bind (Exec.charge_ends (unpaid _ hf₃ ⟨_, key, new, found, hwrote⟩))
  rintro _ s₅ ⟨-, hw₅⟩
  rw [← hw₅] at hwrote
  refine (Exec.refund_ends fun fault hfault => ?_).imp ?_
  · exact overflows _ found.value fault ⟨_, key, new, found, hwrote⟩ (host_refund_error hfault)
  · rintro _ s₆ ⟨refunded, -⟩
    exact written _ (.write hwrote (host_refund refunded))

theorem slotStore_ends :
    Ends (Instruction.slotStore (x.host inner)) m (x.Leaves m) fun _ n =>
      Journal.Deeds x.database m.frame.rules m.world.journal n.world.journal := by
  apply slotStore_rule
  · exact fun s f => .of_world rfl
  · exact fun n hlooks => .inl (.single (.looks hlooks))
  · exact fun n hstays hwrote => .inr ⟨rfl, hstays, hwrote⟩
  · exact fun n found fault _ _ => trivial
  · exact fun n hdeed => .single hdeed

/-- A destruction is refused, or fails, or it is made if the counter has room for its refund. -/
theorem selfDestruct_rule {E : Ending → Machine Session → Prop}
    (unchanged : ∀ s f, E (.status s) ⟨f, m.world⟩)
    (failed : ∀ n : Machine Session,
      Journal.Looks x.database m.world.journal n.world.journal → E (.status .hostFailure) n)
    (overflows : ∀ (n : Machine Session) a target found fault,
      Journal.selfDestruct x.database a target m.world.journal = .ok found n.world.journal →
        n.world.journal.recordRefund Price.selfDestructRefund = .error fault → E (.fault fault) n)
    (destroyed : ∀ s (n : Machine Session),
      Journal.Deed x.database m.frame.rules m.world.journal n.world.journal → E (.status s) n) :
    Ends (Instruction.selfDestruct (x.host inner)) m E fun _ _ => False := by
  apply Ends.bind (Exec.here_ends Local.mayWrite_mild (.refl m) unchanged)
  intro _ s₁ h₁
  apply Ends.bind (Exec.here_ends Local.pop1_mild h₁ unchanged)
  rintro beneficiary s₂ ⟨hf₂, hw₂⟩
  apply Exec.get_bind
  refine Ends.bind (Exec.ask_ends fun e w hfailed => failed _ ?_) ?_
  · rw [hw₂] at hfailed
    exact load_error (Journal.selfDestruct_alters _ _ _) hfailed
  rintro found s₃ ⟨asked, hf₃⟩
  rw [hw₂] at asked
  rw [← hf₃] at hf₂
  have hdestroyed := load_ok asked
  have hrules : s₃.frame.rules = m.frame.rules := congrArg Invocation.rules hf₂.2
  apply Exec.rules_bind
  rw [hrules]
  have ending : ∀ t : Machine Session,
      Journal.Deed x.database m.frame.rules m.world.journal t.world.journal →
      Ends (Instruction.endDestruct (Price.selfDestruct m.frame.rules found.value.hadValue
        found.value.targetExists found.cold)) t E fun _ _ => False := by
    intro t ht
    apply Ends.bind (Exec.charge_ends (destroyed _ _ ht))
    rintro _ u ⟨-, hu⟩
    rw [← hu] at ht
    exact destroyed _ _ ht
  split
  · rename_i hgrants
    refine Ends.bind (Exec.refund_ends fun fault hfault => ?_) ?_
    · exact overflows _ _ _ found fault hdestroyed (host_refund_error hfault)
    rintro _ s₄ ⟨refunded, -⟩
    refine ending s₄ (.destroy hdestroyed ?_)
    rw [if_pos hgrants]
    exact host_refund refunded
  · rename_i hnone
    refine ending s₃ (.destroy hdestroyed ?_)
    rw [if_neg hnone]

theorem selfDestruct_ends :
    Ends (Instruction.selfDestruct (x.host inner)) m
      (fun e n => ∀ s, e = .status s →
        Journal.Deeds x.database m.frame.rules m.world.journal n.world.journal) fun _ _ => False := by
  apply selfDestruct_rule
  · exact fun _ _ _ _ => .refl
  · exact fun n hlooks _ _ => .single (.looks hlooks)
  · exact fun _ _ _ _ _ _ _ _ he => Ending.noConfusion he
  · exact fun _ n hdeed _ _ => .single hdeed

inductive Stepped (x : Executor) (inner : Option (Host Session)) (m : Machine Session) :
    Machine Session → Prop
  | deeds {n : Machine Session}
      (deeds : Journal.Deeds x.database m.frame.rules m.world.journal n.world.journal) :
      Stepped x inner m n
  /-- The frame can not pay for a write that it has made. -/
  | unpaid {n : Machine Session} (store : Opcode.ofByte? m.frame.nextByte = some .slotStore)
      (status : n.frame.status = .outOfGas) (pc : n.frame.pc = m.frame.pc + 1)
      (wrote : Journal.Wrote x.database m.world.journal n.world.journal) : Stepped x inner m n
  | nests {r : Request} {t n : Machine Session} (asking : m.Asking (x.host inner) r t)
      (ran : (x.host inner).after t.world r = .ok n.world) : Stepped x inner m n

/-- Without what changes accounts, a frame takes looks and writes the log. -/
theorem muted_act (h : (x.host inner).muted.Act i s t) :
    Journal.Looks x.database s.journal t.journal ∨ ∃ l, t.journal = s.journal.log l := by
  have looked : ∀ {α : Type} {y : Loading α} {Q : α → Journal → Prop},
      Journal.Shows x.database y s.journal Q →
        Journal.Looks x.database s.journal (leftBy (Session.load y) s).journal := by
    intro α y Q hy
    rw [Session.load_journal]
    exact hy.looks
  cases h with
  | existence a => exact .inl (looked (Journal.loadExistence_shows a _))
  | blockHash number => exact .inl (looked (Journal.loadBlockHash_shows number _))
  | balance a =>
    refine .inl (looked (Journal.Shows.bind (Journal.loadAccount_shows a _) ?_)
      (Q := fun _ _ => True))
    intro found k _
    exact .pure trivial
  | code a => exact .inl (looked (Journal.loadCode_shows a _))
  | codeHash a =>
    refine .inl (looked (Journal.Shows.bind (Journal.loadAccount_shows a _) ?_)
      (Q := fun _ _ => True))
    intro found k _
    exact .pure trivial
  | readSlot key => exact .inl (looked (Journal.readSlot_shows _ key _))
  | writeSlot key new writable => exact .inl .refl
  | selfDestruct target writable => exact .inl .refl
  | refund writable refunded =>
    cases refunded
    exact .inl .refl
  | log l writable => exact .inr ⟨l, rfl⟩

theorem muted_acts (h : (x.host inner).muted.Acts i s t) (r : Rules) :
    Journal.Deeds x.database r s.journal t.journal := by
  induction h with
  | refl => exact .refl
  | tail _ hact ih =>
    obtain hlooks | ⟨l, hl⟩ := muted_act hact
    · exact ih.tail (.looks hlooks)
    · rw [hl]
      exact ih.tail (.log l)

/-- A frame that asks for a nested one has only looked at the state. -/
theorem asking_deeds {r : Request} (h : m.Asking (x.host inner) r n) (rules : Rules) :
    Journal.Deeds x.database rules m.world.journal n.world.journal := by
  have hmuted : m.Asking (x.host inner).muted r n := (Machine.asking_congr rfl).mpr h
  exact muted_acts hmuted.used rules

theorem stepped_of_calm (hcalm : ∀ op ∈ Opcode.ofByte? m.frame.nextByte, op.isCalm = true)
    (h : m.step (x.host inner) = .ok n) : x.Stepped inner m n := by
  have hmuted : m.step (x.host inner).muted = m.step (x.host inner) := by
    rw [Machine.step_eq, Machine.step_eq, Machine.execute_muted hcalm]
  obtain ⟨-, used | ⟨r, t, asking, ran⟩⟩ := Machine.step_ran (hmuted.trans h)
  · exact .deeds (muted_acts used _)
  · have hafter : (x.host inner).muted.after t.world r = (x.host inner).after t.world r := by
      cases r <;> rfl
    exact .nests ((Machine.asking_congr rfl).mp asking) (hafter ▸ ran)

/-- How an opcode ends whose price in the table has been charged. -/
theorem execute_ends {op : Opcode} {E : Machine Session → Ending → Machine Session → Prop}
    {Q : Machine Session → Machine Session → Prop}
    (hE : ∀ s e n, m.Stays s → E s e n → E m e n) (hQ : ∀ s n, m.Stays s → Q s n → Q m n)
    (unpaid : E m (.status .outOfGas) m)
    (hrun : ∀ s, Ends (op.run (x.host inner)) s (E s) fun _ n => Q s n) :
    Ends (Machine.execute (x.host inner) (some op)) m (E m) fun _ n => Q m n := by
  apply Ends.bind (Exec.charge_ends unpaid)
  intro _ s hs
  exact ((hrun s).refused fun e n he => hE s e n hs he).imp fun _ n hn => hQ s n hs hn

theorem stepped_of_store (hstore : Opcode.ofByte? m.frame.nextByte = some .slotStore)
    (h : m.step (x.host inner) = .ok n) : x.Stepped inner m n := by
  have hends : Ends (Machine.execute (x.host inner) (some .slotStore)) m.passed
      (x.Leaves m.passed) fun _ n =>
        Journal.Deeds x.database m.passed.frame.rules m.passed.world.journal n.world.journal := by
    refine execute_ends (Q := fun s n =>
      Journal.Deeds x.database s.frame.rules s.world.journal n.world.journal)
      (fun s e n hs he => he.of_stays hs) (fun s n hs hn => ?_) (.of_world rfl)
      fun s => slotStore_ends
    have hrules : s.frame.rules = m.passed.frame.rules := congrArg Invocation.rules hs.1.2
    rwa [hs.2, hrules] at hn
  rw [Machine.step_eq, hstore] at h
  obtain hdeeds | ⟨s, k, hleaves, rfl⟩ := Machine.settle_ends hends h
  · exact .deeds hdeeds
  · obtain hdeeds | ⟨rfl, hstays, hwrote⟩ := hleaves
    · exact .deeds hdeeds
    · exact .unpaid hstore rfl hstays.1 hwrote

theorem stepped_of_selfDestruct (hop : Opcode.ofByte? m.frame.nextByte = some .selfDestruct)
    (h : m.step (x.host inner) = .ok n) : x.Stepped inner m n := by
  have hends : Ends (Machine.execute (x.host inner) (some .selfDestruct)) m.passed
      (fun e n => ∀ s, e = .status s →
        Journal.Deeds x.database m.passed.frame.rules m.passed.world.journal n.world.journal)
      fun _ _ => False := by
    refine execute_ends (E := fun m e n => ∀ s, e = .status s →
        Journal.Deeds x.database m.frame.rules m.world.journal n.world.journal)
      (Q := fun _ _ => False) (fun s e n hs he status hstatus => ?_) (fun _ _ _ => id)
      (fun _ _ => .refl) fun s => selfDestruct_ends
    have hrules : s.frame.rules = m.passed.frame.rules := congrArg Invocation.rules hs.1.2
    have hdeeds := he status hstatus
    rwa [hs.2, hrules] at hdeeds
  rw [Machine.step_eq, hop] at h
  obtain hnever | ⟨s, k, hdeeds, rfl⟩ := Machine.settle_ends hends h
  · exact hnever.elim
  · exact .deeds (hdeeds s rfl)

theorem step_stepped (h : m.step (x.host inner) = .ok n) : x.Stepped inner m n := by
  cases hop : Opcode.ofByte? m.frame.nextByte with
  | none => exact stepped_of_calm (fun op hop' => by rw [hop] at hop'; cases hop') h
  | some op =>
    cases hcalm : op.isCalm with
    | true =>
      refine stepped_of_calm (fun op' hop' => ?_) h
      rw [hop] at hop'
      cases hop'
      exact hcalm
    | false =>
      cases op with
      | slotStore => exact stepped_of_store hop h
      | selfDestruct => exact stepped_of_selfDestruct hop h
      | _ => cases hcalm

end Executor

end MeteredVM
