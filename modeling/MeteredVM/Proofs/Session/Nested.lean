import MeteredVM.Proofs.Outcome
import MeteredVM.Session.Frames

namespace MeteredVM

def Yields {σ α : Type} (x : Nested σ α) (s : σ) (E : Fault → Prop) (Q : α → σ → Prop) : Prop :=
  match x s with
  | .ok (a, t) => Q a t
  | .error e => E e

def Session.noting (s : Session) (event : Nat → FrameEvent) : Session :=
  { s with events := event s.journal.depth :: s.events }

namespace Session

variable {ε α : Type} {db : Database} {s : Session} {Q : α → Session → Prop}

theorem load_rule {y : Loading α} {E : Unavailable → Session → Prop}
    (h : Ends y s.journal (fun outage k => E {} { s with journal := k, failure := some outage })
      fun a k => Q a { s with journal := k }) :
    Ends (load y) s E Q := by
  simp only [Ends, load] at h ⊢
  cases hrun : y s.journal with
  | ok a k =>
    rw [hrun] at h
    exact h
  | error outage k =>
    rw [hrun] at h
    exact h

theorem require_rule {a : Address} {refusal : ε} {E : ε → Session → Prop} {Q : Session → Prop}
    (h : Ends (load (Journal.loadAccount db a)) s (fun _ t => E refusal t) fun _ t => Q t) :
    Ends (require db a refusal) s E fun _ t => Q t := by
  simp only [Ends, require] at h ⊢
  cases hrun : load (Journal.loadAccount db a) s with
  | ok found t =>
    rw [hrun] at h
    exact h
  | error e t =>
    rw [hrun] at h
    exact h

theorem move_rule {p : TransferPolicy} {source target : Address} {value : Word}
    {E : Status → Session → Prop} {Q : Session → Prop}
    (h : Ends (p.move source target value) s.journal (fun status k => E status { s with journal := k })
      fun _ k => Q { s with journal := k }) :
    Ends (move p source target value) s E fun _ t => Q t := by
  simp only [Ends, move] at h ⊢
  cases hrun : p.move source target value s.journal with
  | ok _ k =>
    rw [hrun] at h
    exact h
  | error status k =>
    rw [hrun] at h
    exact h

end Session

namespace Yields

section Rules

variable {σ α β : Type} {x : Nested σ α} {s : σ} {E : Fault → Prop} {Q R : α → σ → Prop}

theorem iff : Yields x s E Q ↔
    (∀ a t, x s = .ok (a, t) → Q a t) ∧ ∀ e, x s = .error e → E e := by
  unfold Yields
  cases x s with
  | ok p => simp [Prod.ext_iff]
  | error e => simp

theorem ok {a : α} {t : σ} (h : Yields x s E Q) (hx : x s = .ok (a, t)) : Q a t :=
  (iff.mp h).1 a t hx

theorem error {e : Fault} (h : Yields x s E Q) (hx : x s = .error e) : E e :=
  (iff.mp h).2 e hx

theorem imp (h : Yields x s E Q) (hQ : ∀ a t, Q a t → R a t) : Yields x s E R := by
  apply iff.mpr
  exact ⟨fun a t hx => hQ a t (h.ok hx), fun e hx => h.error hx⟩

theorem faulted {F : Fault → Prop} (h : Yields x s E Q) (hE : ∀ e, E e → F e) :
    Yields x s F Q := by
  apply iff.mpr
  exact ⟨fun a t hx => h.ok hx, fun e hx => hE e (h.error hx)⟩

theorem and {F : Fault → Prop} (h : Yields x s E Q) (h' : Yields x s F R) :
    Yields x s E fun a t => Q a t ∧ R a t := by
  apply iff.mpr
  exact ⟨fun a t hx => ⟨h.ok hx, h'.ok hx⟩, fun e hx => h.error hx⟩

theorem known (h : Yields x s E Q) : Yields x s E fun a t => x s = .ok (a, t) ∧ Q a t := by
  apply iff.mpr
  exact ⟨fun a t hx => ⟨hx, h.ok hx⟩, fun e hx => h.error hx⟩

theorem pure {a : α} (h : Q a s) : Yields (pure a : Nested σ α) s E Q := h

theorem bind {k : α → Nested σ β} {R : β → σ → Prop} (hx : Yields x s E Q)
    (hk : ∀ a t, Q a t → Yields (k a) t E R) : Yields (x >>= k) s E R := by
  simp only [Yields, Bind.bind, StateT.bind, Except.bind] at hx ⊢
  cases h : x s with
  | error e =>
    rw [h] at hx
    exact hx
  | ok p =>
    rw [h] at hx
    exact hk p.1 p.2 hx

theorem state (h : Yields x s E Q) :
    (∀ t, (x s).map Prod.snd = .ok t → ∃ a, Q a t) ∧
      ∀ e, (x s).map Prod.snd = .error e → E e := by
  refine ⟨fun t ht => ?_, fun e he => h.error (Except.map_eq_error he)⟩
  obtain ⟨⟨a, u⟩, hx, rfl⟩ := Except.map_eq_ok ht
  exact ⟨a, h.ok hx⟩

theorem any (h : ∀ a t, x s = .ok (a, t) → Q a t) : Yields x s (fun _ => True) Q := by
  apply iff.mpr
  exact ⟨h, fun e he => trivial⟩

theorem modify {u : σ → σ} : Yields (modify u) s E fun _ t => t = u s := rfl

theorem lifted {y : Except Fault α} (faults : ∀ e, y = .error e → E e) :
    Yields (liftM y : Nested σ α) s E fun a t => y = .ok a ∧ t = s := by
  cases y with
  | ok a => exact ⟨rfl, rfl⟩
  | error e => exact faults e rfl

end Rules

section Session

variable {E : Fault → Prop} {s : Session}

theorem emit {event : Nat → FrameEvent} :
    Yields (Session.emit event) s E fun _ t => t = s.noting event := rfl

theorem attempt {ε α : Type} {x : EStateM ε Session α} {F : ε → Session → Prop}
    {Q : α → Session → Prop} (h : Ends x s F Q) :
    Yields (Session.attempt x) s E fun r t =>
      match r with
      | .ok a => x s = .ok a t ∧ Q a t
      | .error e => F e t := by
  simp only [Yields, Session.attempt]
  cases hx : x s with
  | ok a t => exact ⟨rfl, h.ok hx⟩
  | error e t => exact h.error hx

end Session

-- As for the steps of a frame, unfolding it further would run the code.
attribute [irreducible] Yields

end Yields

namespace Executor

variable {x : Executor} {E : Fault → Prop} {s : Session} {mark : Checkpoint} {f : Frame}

/-- A call is opened and its payment made, or that is undone. -/
theorem openCall_rule {r : CallRequest} {Q : Except Status Checkpoint → Session → Prop}
    (paid : Ends (x.payCall r) { s with journal := s.journal.checkpoint.2 }
      (fun status t => Yields (Session.revert s.journal.checkpoint.1) t E fun _ u => Q (.error status) u)
      fun _ t => Q (.ok s.journal.checkpoint.1) t) :
    Yields (x.openCall r) s E Q := by
  have hcheckpoint : Yields Session.checkpoint s E fun mark t =>
      mark = s.journal.checkpoint.1 ∧ t = { s with journal := s.journal.checkpoint.2 } := by
    unfold Yields Session.checkpoint
    exact ⟨rfl, rfl⟩
  unfold openCall
  apply Yields.bind hcheckpoint
  rintro _ _ ⟨rfl, rfl⟩
  apply Yields.bind (.attempt paid)
  intro paid t ht
  cases paid with
  | ok _ => exact .pure ht.2
  | error status =>
    apply Yields.bind ht
    intro _ u hu
    exact .pure hu

theorem closeCall_rule {Q : CallReply → Session → Prop}
    (faults : ∀ e, f.outputData = .error e → E e)
    (kept : f.status.isOk = true → Yields Session.commit s E fun _ t =>
      ∀ output, Q ⟨f.status, f.gas, output⟩ (t.noting (.callClosed · f.status f.gas.remaining)))
    (undone : f.status.isOk = false → Yields (Session.revert mark) s E fun _ t =>
      ∀ output, Q ⟨f.status, f.gas, output⟩ (t.noting (.callClosed · f.status f.gas.remaining))) :
    Yields (closeCall mark f) s E Q := by
  unfold closeCall
  split
  · rename_i hok
    apply Yields.bind (kept hok)
    intro _ t ht
    apply Yields.bind .emit
    rintro _ _ rfl
    apply Yields.bind (.lifted faults)
    rintro output _ ⟨-, rfl⟩
    exact .pure (ht output)
  · rename_i hfailed
    apply Yields.bind (undone (Bool.not_eq_true _ |>.mp hfailed))
    intro _ t ht
    apply Yields.bind .emit
    rintro _ _ rfl
    apply Yields.bind (.lifted faults)
    rintro output _ ⟨-, rfl⟩
    exact .pure (ht output)

/-- A creation is not opened, or its endowment is paid, or that is undone. -/
theorem endowCreate_rule {r : CreateRequest} {P : Address × Checkpoint → Session → Prop}
    {Q : Except CreateRefusal (Address × Checkpoint) → Session → Prop}
    (opened : Ends (x.openCreate r) s (fun why t => Q (.error why) t) P)
    (paid : ∀ p t, x.openCreate r s = .ok p t → P p t →
      Ends (Session.move x.transfers r.creator p.1 r.value) t
        (fun status u => Yields (Session.revert p.2) u E fun _ v => Q (.error ⟨status, some p.1⟩) v)
        fun _ u => Q (.ok p) u) :
    Yields (x.endowCreate r) s E Q := by
  unfold endowCreate
  apply Yields.bind (.attempt opened)
  intro opened t ht
  cases opened with
  | error why => exact .pure ht
  | ok p =>
    obtain ⟨hopened, hp⟩ := ht
    apply Yields.bind (.attempt (paid p t hopened hp))
    intro moved u hu
    cases moved with
    | ok _ => exact .pure hu.2
    | error status =>
      apply Yields.bind hu
      intro _ v hv
      exact .pure hv

/-- The init code of a creation has failed, or what it has returned is deployed, or refused. -/
theorem closeCreate_rule {address : Address} {Q : CreateReply → Session → Prop}
    (faults : ∀ e, f.outputData = .error e → E e)
    (failed : f.status.isOk = false → Yields (Session.revert mark) s E fun _ t =>
      ∀ output, Q ⟨f.status, some address, f.gas, output⟩ t)
    (stored : f.status.isOk = true → ∀ output gas code, f.outputData = .ok output →
      x.deposit f.gas output = .ok (gas, code) → Yields Session.commit s E fun _ t =>
        Q ⟨f.status, some address, gas, code⟩ { t with journal := t.journal.setCode address code })
    (refused : f.status.isOk = true → ∀ output status, x.deposit f.gas output = .error status →
      Yields (Session.revert mark) s E fun _ t =>
        Q ⟨status, some address, f.gas.exhaust, output⟩ t) :
    Yields (x.closeCreate address mark f) s E Q := by
  simp only [closeCreate]
  split
  · rename_i hfailed
    apply Yields.bind (failed (by simpa using hfailed))
    intro _ t ht
    apply Yields.bind (.lifted faults)
    rintro output _ ⟨-, rfl⟩
    exact .pure (ht output)
  · rename_i hok
    replace hok : f.status.isOk = true := by simpa using hok
    apply Yields.bind (.lifted faults)
    rintro output _ ⟨houtput, rfl⟩
    split
    · rename_i gas code hdeposit
      apply Yields.bind (stored hok output gas code houtput hdeposit)
      intro _ t ht
      apply Yields.bind .modify
      rintro - _ rfl
      exact .pure ht
    · rename_i status hdeposit
      apply Yields.bind (refused hok output status hdeposit)
      intro _ t ht
      exact .pure ht

end Executor

end MeteredVM
