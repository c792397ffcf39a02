import MeteredVM.Proofs.Frame.Step

namespace MeteredVM

open Exec Local

variable {σ α β : Type} {h : Host σ}

namespace Exec

theorem bind_congr {x : Exec σ α} {k k' : α → Exec σ β} {s : Machine σ}
    (hk : ∀ a t, x s = .ok a t → k a t = k' a t) : (x >>= k) s = (x >>= k') s := by
  simp only [Bind.bind, EStateM.bind]
  cases hx : x s with
  | ok a t => exact hk a t hx
  | error e t => rfl

theorem follows_of_here {n : Nat} {x : Local α} {Q : α → Frame → Prop} {a : α} {s t : Machine σ}
    (hx : Local.Pays False n x s.frame Q) (h : here x s = .ok a t) :
    s.frame.Follows False n t.frame := by
  unfold Local.Pays at hx
  replace hx := hx False.elim
  simp only [here] at h
  cases hrun : x s.frame with
  | ok b f =>
    rw [hrun] at h hx
    cases h
    exact hx.1
  | error e f =>
    rw [hrun] at h
    cases h

end Exec

structure Frame.Starved (f : Frame) : Prop where
  rules : f.rules.hasSentry = true
  gas : f.gas.remaining ≤ Price.sentry

theorem Frame.Starved.follows {f g : Frame} {P : Prop} {n : Nat} (hf : f.Starved)
    (h : f.Follows P n g) : g.Starved where
  rules := by
    rw [Frame.rules, h.invocation]
    exact hf.rules
  gas := by
    have hpaid := h.paid
    have hgas := hf.gas
    omega

namespace Instruction

theorem sentry_stops {f : Frame} (hf : f.Starved) :
    sentry f = .error (.status .sentryOutOfGas) f := by
  have hclosed : (!(f.rules.hasSentry && decide (f.gas.remaining ≤ Price.sentry))) = false := by
    rw [hf.rules, decide_eq_true hf.gas]
    rfl
  change ensure _ _ f = _
  rw [hclosed]
  rfl

theorem slotStore_starved {s : Machine σ} (hs : s.frame.Starved)
    (write : Address → Word → Word → Query σ (Loaded SlotChange)) :
    slotStore { h with writeSlot := write } s = slotStore h s := by
  unfold slotStore
  refine bind_congr fun _ s₁ h₁ => ?_
  refine bind_congr fun p s₂ h₂ => ?_
  refine bind_congr fun _ s₃ h₃ => ?_
  -- The sentry is asked before the host is.
  have hs₂ : s₂.frame.Starved :=
    (hs.follows (follows_of_here .mayWrite h₁)).follows (follows_of_here .pop2 h₂)
  have hstops : (here sentry : Exec σ Unit) s₂ = .error (.status .sentryOutOfGas) s₂ := by
    simp only [here, sentry_stops hs₂]
  cases hstops.symm.trans h₃

end Instruction

namespace Machine

theorem step_starved {s : Machine σ} (hs : s.frame.Starved)
    (write : Address → Word → Word → Query σ (Loaded SlotChange)) :
    s.step { h with writeSlot := write } = s.step h := by
  have hrun : ∀ op : Opcode, ∀ t : Machine σ, t.frame.Starved →
      op.run { h with writeSlot := write } t = op.run h t := by
    intro op t ht
    cases op with
    | slotStore => exact Instruction.slotStore_starved ht write
    | _ => rfl
  rw [step_eq, step_eq]
  apply settle_congr
  cases Opcode.ofByte? s.frame.nextByte with
  | none => rfl
  | some op =>
    have hpassed : s.passed.frame.Starved := ⟨hs.rules, hs.gas⟩
    exact bind_congr fun _ t ht => hrun op t (hpassed.follows (follows_of_here .charge ht))

end Machine

end MeteredVM
