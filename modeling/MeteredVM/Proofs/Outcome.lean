import MeteredVM.Report

namespace MeteredVM

variable {ε σ α : Type}

/-- The state in which a step leaves off, whether it succeeds or not. -/
def leftBy (x : EStateM ε σ α) (s : σ) : σ :=
  match x s with
  | .ok _ s => s
  | .error _ s => s

def errorOf? (x : EStateM ε σ α) (s : σ) : Option ε :=
  match x s with
  | .ok _ _ => none
  | .error e _ => some e

theorem Except.bind_eq_ok {β : Type} {x : Except ε α} {k : α → Except ε β} {b : β}
    (h : x >>= k = .ok b) : ∃ a, x = .ok a ∧ k a = .ok b := by
  cases x with
  | ok a => exact ⟨a, rfl, h⟩
  | error e => cases h

theorem Except.map_eq_ok {β : Type} {x : Except ε α} {f : α → β} {b : β}
    (h : x.map f = .ok b) : ∃ a, x = .ok a ∧ f a = b := by
  cases x with
  | ok a => exact ⟨a, rfl, Except.ok.inj h⟩
  | error e => cases h

theorem Except.eq_ok_of_toOption {x : Except ε α} {a : α} (h : x.toOption = some a) : x = .ok a := by
  cases x with
  | ok b => exact congrArg Except.ok (Option.some.inj h)
  | error e => cases h

theorem Except.map_eq_error {β : Type} {x : Except ε α} {f : α → β} {e : ε}
    (h : x.map f = .error e) : x = .error e := by
  cases x with
  | ok a => cases h
  | error e' =>
    cases h
    rfl

theorem Except.bind_eq_error {β : Type} {x : Except ε α} {k : α → Except ε β} {e : ε}
    (h : x >>= k = .error e) : x = .error e ∨ ∃ a, x = .ok a ∧ k a = .error e := by
  cases x with
  | ok a => exact .inr ⟨a, rfl, h⟩
  | error e' =>
    cases h
    exact .inl rfl

theorem leftBy_eq_of_ok {x : EStateM ε σ α} {s t : σ} {a : α} (h : x s = .ok a t) :
    leftBy x s = t := by
  simp only [leftBy, h]

theorem leftBy_eq_of_error {x : EStateM ε σ α} {s t : σ} {e : ε} (h : x s = .error e t) :
    leftBy x s = t := by
  simp only [leftBy, h]

def Ends {ε σ α : Type} (x : EStateM ε σ α) (s : σ) (E : ε → σ → Prop) (Q : α → σ → Prop) :
    Prop :=
  match x s with
  | .ok a t => Q a t
  | .error e t => E e t

namespace Ends

variable {ε σ α β : Type} {x : EStateM ε σ α} {s : σ} {E : ε → σ → Prop} {Q : α → σ → Prop}

theorem iff : Ends x s E Q ↔
    (∀ a t, x s = .ok a t → Q a t) ∧ ∀ e t, x s = .error e t → E e t := by
  unfold Ends
  cases x s with
  | ok a t => simp
  | error e t => simp

theorem ok {a : α} {t : σ} (h : Ends x s E Q) (hx : x s = .ok a t) : Q a t :=
  (iff.mp h).1 a t hx

theorem error {e : ε} {t : σ} (h : Ends x s E Q) (hx : x s = .error e t) : E e t :=
  (iff.mp h).2 e t hx

theorem imp {R : α → σ → Prop} (h : Ends x s E Q) (hQ : ∀ a t, Q a t → R a t) :
    Ends x s E R := by
  apply iff.mpr
  exact ⟨fun a t hx => hQ a t (h.ok hx), fun e t hx => h.error hx⟩

theorem refused {F : ε → σ → Prop} (h : Ends x s E Q) (hE : ∀ e t, E e t → F e t) :
    Ends x s F Q := by
  apply iff.mpr
  exact ⟨fun a t hx => h.ok hx, fun e t hx => hE e t (h.error hx)⟩

theorem bind {k : α → EStateM ε σ β} {R : β → σ → Prop} (hx : Ends x s E Q)
    (hk : ∀ a t, Q a t → Ends (k a) t E R) : Ends (x >>= k) s E R := by
  simp only [Ends, Bind.bind, EStateM.bind] at hx ⊢
  cases h : x s with
  | ok a t =>
    rw [h] at hx
    exact hk a t hx
  | error e t =>
    rw [h] at hx
    exact hx

theorem bind_of_ok {k : α → EStateM ε σ β} {R : β → σ → Prop} {a : α} {t : σ} (hx : x s = .ok a t)
    (hk : Ends (k a) t E R) : Ends (x >>= k) s E R := by
  simp only [Ends, Bind.bind, EStateM.bind, hx] at hk ⊢
  exact hk

theorem bind_of_error {k : α → EStateM ε σ β} {R : β → σ → Prop} {e : ε} {t : σ}
    (hx : x s = .error e t) (he : E e t) : Ends (x >>= k) s E R := by
  simp only [Ends, Bind.bind, EStateM.bind, hx]
  exact he

theorem and {F : ε → σ → Prop} {R : α → σ → Prop} (h : Ends x s E Q) (h' : Ends x s F R) :
    Ends x s (fun e t => E e t ∧ F e t) fun a t => Q a t ∧ R a t := by
  apply iff.mpr
  exact ⟨fun a t hx => ⟨h.ok hx, h'.ok hx⟩, fun e t hx => ⟨h.error hx, h'.error hx⟩⟩

theorem left {P : σ → Prop} (h : Ends x s (fun _ t => P t) fun _ t => P t) : P (leftBy x s) := by
  cases hx : x s with
  | ok a t => exact leftBy_eq_of_ok hx ▸ h.ok hx
  | error e t => exact leftBy_eq_of_error hx ▸ h.error hx

theorem of_left {P : σ → Prop} (h : P (leftBy x s)) : Ends x s (fun _ t => P t) fun _ t => P t :=
  iff.mpr ⟨fun _ _ hx => leftBy_eq_of_ok hx ▸ h, fun _ _ hx => leftBy_eq_of_error hx ▸ h⟩

theorem exists_ok (h : Ends x s (fun _ _ => False) Q) : ∃ a t, x s = .ok a t ∧ Q a t := by
  cases hx : x s with
  | ok a t => exact ⟨a, t, rfl, h.ok hx⟩
  | error e t => exact (h.error hx).elim

theorem known (h : Ends x s E Q) : Ends x s E fun a t => x s = .ok a t ∧ Q a t := by
  apply iff.mpr
  exact ⟨fun a t hx => ⟨hx, h.ok hx⟩, fun e t hx => h.error hx⟩

theorem pure {a : α} (h : Q a s) : Ends (pure a : EStateM ε σ α) s E Q := h

theorem throw {e : ε} (h : E e s) : Ends (throw e : EStateM ε σ α) s E Q := h

theorem get : Ends (get : EStateM ε σ σ) s E fun a t => a = s ∧ t = s := ⟨rfl, rfl⟩

theorem modify {u : σ → σ} : Ends (modify u : EStateM ε σ Unit) s E fun _ t => t = u s := rfl

end Ends

def Status.Conclusive (s : Status) : Prop := s.verdict.outcome?.isSome = true

theorem Status.Conclusive.ne_hostFailure {s : Status} (h : s.Conclusive) : s ≠ .hostFailure := by
  rintro rfl
  cases h

/-- Whether a frame that runs can end with the status. With the others it is not opened, or what it has
created is not kept. -/
def Status.endsFrame : Status → Bool
  | running | tooDeep | outOfFunds | createCollision | balanceOverflow | nonceOverflow
  | codeTooLarge | codeStartsWithEF => false
  | _ => true

def Status.Inner (s : Status) : Prop := (s.endsFrame && s != .hostFailure) = true

theorem Status.Inner.endsFrame {s : Status} (h : s.Inner) : s.endsFrame = true :=
  (Bool.and_eq_true_iff.mp h).1

theorem Status.ne_running_of_endsFrame {s : Status} (h : s.endsFrame = true) : s ≠ .running := by
  rintro rfl
  cases h

theorem Status.Inner.ne_hostFailure {s : Status} (h : s.Inner) : s ≠ .hostFailure := by
  rintro rfl
  cases h

/-- Whether a frame is refused with the status: it has not been opened, or its host has failed. -/
def Status.refuses : Status → Bool
  | outOfFunds | createCollision | balanceOverflow | nonceOverflow | hostFailure => true
  | _ => false

theorem Status.isOk_of_refuses {s : Status} (h : s.refuses = true) : s.isOk = false := by
  cases s <;> first | rfl | cases h

theorem Status.conclusive_of_ne {s : Status} (running : s ≠ .running) (failed : s ≠ .hostFailure) :
    s.Conclusive := by
  cases s <;> first | rfl | contradiction

end MeteredVM
