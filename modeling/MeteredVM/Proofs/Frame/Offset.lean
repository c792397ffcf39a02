import MeteredVM.Proofs.Frame.Usage

namespace MeteredVM

open Exec Instruction

variable {σ α β : Type}

def Stack.withOperand (s : Stack) (i : Nat) (w : Word) : Stack := ⟨s.items.set i w⟩

namespace Stack

variable {s t : Stack} {i n : Nat} {w : Word}

theorem length_withOperand (s : Stack) (i : Nat) (w : Word) :
    (s.withOperand i w).items.length = s.items.length :=
  List.length_set

theorem popN_withOperand {args : Fin n → Word} (h : s.popN n = .ok (args, t)) :
    ∃ args', (s.withOperand i w).popN n =
        .ok (args', if i < n then t else t.withOperand (i - n) w) ∧
      ∀ j, j.val ≠ i → args' j = args j := by
  simp only [popN] at h ⊢
  split at h
  · rename_i hn
    cases h
    have hn' : n ≤ (s.withOperand i w).items.length := by
      rw [length_withOperand]
      exact hn
    rw [dif_pos hn']
    refine ⟨_, congrArg _ (congrArg _ ?_), fun j hj => ?_⟩
    · simp only [withOperand, List.drop_set]
      split <;> rfl
    · exact List.getElem_set_ne (Ne.symm hj) _
  · cases h

theorem popN_withOperand_error {e : Status} (h : s.popN n = .error e) :
    (s.withOperand i w).popN n = .error e := by
  simp only [popN] at h ⊢
  split at h
  · cases h
  · rename_i hn
    rw [← length_withOperand s i w] at hn
    rw [dif_neg hn]
    exact h

end Stack

namespace Machine

def withStack (s : Machine σ) (stack : Stack) : Machine σ :=
  { s with frame := { s.frame with stack := stack } }

def withOperand (s : Machine σ) (i : Nat) (w : Word) : Machine σ :=
  s.withStack (s.frame.stack.withOperand i w)

end Machine

namespace Exec

inductive Matches : EStateM.Result Ending (Machine σ) α → EStateM.Result Ending (Machine σ) α → Prop
  | same (x : EStateM.Result Ending (Machine σ) α) : Matches x x
  | ends {e : Status} (he : e ≠ .running) (s : Machine σ) (stack : Stack) :
      Matches (.error (.status e) s) (.error (.status e) (s.withStack stack))
  | faults (e : Fault) (s t : Machine σ) : Matches (.error (.fault e) s) (.error (.fault e) t)

def Ignores (x : Exec σ α) (s : Machine σ) (i : Nat) (w : Word) : Prop :=
  Matches (x s) (x (s.withOperand i w))

def Takes (n : Nat) (x : Exec σ α) : Prop :=
  ∀ (s : Machine σ) (i : Nat) (w : Word), n ≤ i →
    match x s with
    | .ok a t => x (s.withOperand i w) = .ok a (t.withOperand (i - n) w) ∧ s.frame.Popped n t.frame
    | .error _ _ => Ignores x s i w

theorem here_bind (x : Local α) (k : α → Local β) :
    (here (x >>= k) : Exec σ β) = here x >>= fun a => here (k a) := by
  funext s
  simp only [here, Bind.bind, EStateM.bind]
  cases x s.frame with
  | ok a f => rfl
  | error e f => rfl

section Runs

variable {s : Machine σ} {n : Nat} {t : Stack} {args : Fin n → Word} {top : Word} {e : Status}

theorem pop_ok (h : s.frame.stack.popN n = .ok (args, t)) :
    (here (Local.pop n) : Exec σ _) s = .ok args (s.withStack t) := by
  simp only [here, Local.pop, h]
  rfl

theorem pop_error (h : s.frame.stack.popN n = .error e) :
    (here (Local.pop n) : Exec σ _) s = .error (.status e) s := by
  simp only [here, Local.pop, h]

end Runs

namespace Ignores

variable {x : Exec σ α} {k : α → Exec σ β} {s : Machine σ} {i n : Nat} {w : Word}

theorem bind (hx : Ignores x s i w) : Ignores (x >>= k) s i w := by
  simp only [Ignores, Bind.bind, EStateM.bind] at hx ⊢
  generalize x s = r, x (s.withOperand i w) = r' at hx ⊢
  cases hx with
  | same r => exact .same _
  | ends he t stack => exact .ends he t stack
  | faults e t t' => exact .faults e t t'

theorem after (hx : Takes n x) (hi : n ≤ i)
    (hk : ∀ a t, s.frame.Popped n t.frame → Ignores (k a) t (i - n) w) :
    Ignores (x >>= k) s i w := by
  have hs := hx s i w hi
  cases hr : x s with
  | ok a t =>
    rw [hr] at hs
    unfold Ignores
    rw [Exec.bind_ok hr, Exec.bind_ok hs.1]
    exact hk a t hs.2
  | error e t =>
    rw [hr] at hs
    exact .bind hs

/-- The step ends the frame at once, whatever the operand is. -/
theorem ofEnding {e : Status} (he : e ≠ .running) (hx : x s = .error (.status e) s)
    (hx' : x (s.withOperand i w) = .error (.status e) (s.withOperand i w)) : Ignores x s i w := by
  unfold Ignores
  rw [hx, hx']
  exact .ends he _ _

end Ignores

namespace Takes

theorem charge (cost : Nat) : Takes 0 (here (Local.charge cost) : Exec σ Unit) := by
  intro s i w _
  cases h : s.frame.gas.charge? cost with
  | none =>
    have hrun : ∀ t : Machine σ, t.frame.gas = s.frame.gas →
        (here (Local.charge cost) : Exec σ Unit) t = .error (.status .outOfGas) t := by
      intro t ht
      simp only [here, Local.charge, ht, h]
    rw [hrun s rfl]
    exact Ignores.ofEnding Status.noConfusion (hrun s rfl) (hrun (s.withOperand i w) rfl)
  | some gas =>
    have hrun : ∀ t : Machine σ, t.frame.gas = s.frame.gas →
        (here (Local.charge cost) : Exec σ Unit) t =
          .ok () { t with frame := { t.frame with gas := gas } } := by
      intro t ht
      simp only [here, Local.charge, ht, h]
    rw [hrun s rfl, hrun (s.withOperand i w) rfl]
    exact ⟨rfl, fun j => by rw [Nat.zero_add]⟩

theorem ofEnsure {x : Local Unit} {c : Frame → Bool} {e : Status} (he : e ≠ .running)
    (hx : ∀ f, x f = Local.ensure (c f) e f) (hc : ∀ f stack, c { f with stack := stack } = c f) :
    Takes 0 (here x : Exec σ Unit) := by
  intro s i w _
  have hrun : ∀ (t : Machine σ) (b : Bool), c t.frame = b →
      (here x : Exec σ Unit) t = (here (Local.ensure b e) : Exec σ Unit) t := by
    intro t b ht
    simp only [here, hx, ht]
  have hput : c (s.withOperand i w).frame = c s.frame := hc s.frame _
  cases hcond : c s.frame with
  | true =>
    rw [hrun s true hcond, hrun (s.withOperand i w) true (hput.trans hcond)]
    exact ⟨rfl, fun j => by rw [Nat.zero_add]⟩
  | false =>
    have hends := hrun s false hcond
    rw [hends]
    exact .ofEnding he hends (hrun (s.withOperand i w) false (hput.trans hcond))

theorem ensure {c : Bool} {e : Status} (he : e ≠ .running) :
    Takes 0 (here (Local.ensure c e) : Exec σ Unit) :=
  .ofEnsure (c := fun _ => c) he (fun _ => rfl) fun _ _ => rfl

theorem since (fork : Hardfork) : Takes 0 (here (Local.since fork) : Exec σ Unit) :=
  .ofEnsure (c := fun f => f.rules.since fork) Status.noConfusion (fun _ => rfl) fun _ _ => rfl

theorem mayWrite : Takes 0 (here Local.mayWrite : Exec σ Unit) :=
  .ofEnsure (c := fun f => !f.invocation.isStatic) Status.noConfusion (fun _ => rfl) fun _ _ => rfl

theorem pop (n : Nat) : Takes n (here (Local.pop n) : Exec σ (Fin n → Word)) := by
  intro s i w hi
  cases h : s.frame.stack.popN n with
  | ok r =>
    obtain ⟨args, t⟩ := r
    obtain ⟨args', h', hsame⟩ := Stack.popN_withOperand (i := i) (w := w) h
    rw [if_neg (Nat.not_lt.2 hi)] at h'
    obtain rfl : args' = args := funext fun j => hsame j (by have := j.isLt; omega)
    rw [pop_ok h, pop_ok h']
    exact ⟨rfl, (Stack.popN_ok h).2⟩
  | error e =>
    have he := Status.ne_running_of_endsFrame (Stack.popN_error h).endsFrame
    rw [pop_error h]
    exact Ignores.ofEnding he (pop_error h) (pop_error (Stack.popN_withOperand_error h))

theorem map {n : Nat} {x : Exec σ α} (hx : Takes n x) (u : α → β) :
    Takes n (x >>= fun a => pure (u a)) := by
  intro s i w hi
  have hs := hx s i w hi
  cases hr : x s with
  | ok a t =>
    rw [hr] at hs
    rw [Exec.bind_ok hr, Exec.bind_ok hs.1]
    exact ⟨rfl, hs.2⟩
  | error e t =>
    rw [hr] at hs
    have hends : (x >>= fun a => pure (u a)) s = .error e t := by
      simp only [Bind.bind, EStateM.bind, hr]
    rw [hends]
    exact .bind hs

theorem pop2 : Takes 2 (here Local.pop2 : Exec σ _) := by
  have hmap : (here Local.pop2 : Exec σ _) =
      here (Local.pop 2) >>= fun args => pure (args 0, args 1) := here_bind _ _
  rw [hmap]
  exact (Takes.pop 2).map _

theorem pop3 : Takes 3 (here Local.pop3 : Exec σ _) := by
  have hmap : (here Local.pop3 : Exec σ _) =
      here (Local.pop 3) >>= fun args => pure (args 0, args 1, args 2) := here_bind _ _
  rw [hmap]
  exact (Takes.pop 3).map _

end Takes
end Exec

namespace Instruction

open Local

variable {s : Machine σ} {w : Word}

section Calls

variable {h : Host σ} {r : Region} {i : Nat}

/-- The operand is where an empty range of a call starts, whose ranges are given by the four
operands after the first `n`. -/
def Vacant (s : Machine σ) (n i : Nat) : Prop :=
  i = n ∧ s.frame.stack.operand (n + 1) = 0 ∨ i = n + 2 ∧ s.frame.stack.operand (n + 3) = 0

theorem Vacant.le {n : Nat} (hs : Vacant s n i) : n ≤ i := by
  obtain ⟨rfl, -⟩ | ⟨rfl, -⟩ := hs
  · exact Nat.le_refl _
  · exact Nat.le_add_right _ _

end Calls

end Instruction

namespace Opcode

variable {h : Host σ} {s : Machine σ} {w : Word} {r : Region}

/-- An operand that is zero is the length of an empty range. -/
theorem operand_eq_zero {stack : Stack} {i j : Nat} {written : Bool}
    (hlen : ((⟨i, .operand j, written⟩ : Region).on stack).length = 0) : stack.operand j = 0 :=
  BitVec.eq_of_toNat_eq hlen

theorem vacant {n : Nat} (hr : r ∈ [⟨n, .operand (n + 1), false⟩, ⟨n + 2, .operand (n + 3), true⟩])
    (hlen : (r.on s.frame.stack).length = 0) : Vacant s n r.offset := by
  obtain rfl | hr := List.mem_cons.1 hr
  · exact .inl ⟨rfl, operand_eq_zero hlen⟩
  · obtain rfl := List.mem_singleton.1 hr
    exact .inr ⟨rfl, operand_eq_zero hlen⟩

end Opcode

namespace Machine

variable {h : Host σ} {s : Machine σ} {w : Word} {r : Region}

end Machine

end MeteredVM
