import Mathlib.Data.List.Perm.Basic
import MeteredVM.Proofs.Frame.Offset
import MeteredVM.Proofs.Frame.Run

namespace MeteredVM

open Relation

variable {σ : Type}

/-- Any number of steps. A frame that has ended is not kept from making more. -/
abbrev Host.StepsTo (h : Host σ) : Machine σ → Machine σ → Prop :=
  ReflTransGen fun s t => s.step h = .ok t

/-- The host has no answer, or the gas that it gives back on top of `left` exceeds 64 bits. -/
inductive Host.Faults (h : Host σ) (left : Nat) : Fault → Prop
  | refund {e : Fault} {amount : Int} {w : σ} (failed : h.refund amount w = .error e) :
      Faults h left e
  | call {e : Fault} {r : CallRequest} {w : σ} (failed : h.call r w = .error e) : Faults h left e
  | create {e : Fault} {r : CreateRequest} {w : σ} (failed : h.create r w = .error e) :
      Faults h left e
  | callOverflow {r : CallRequest} {w w' : σ} {reply : CallReply}
      (answered : h.call r w = .ok (reply, w')) (large : Amount.max < left + reply.gas.remaining) :
      Faults h left .overflow
  | createOverflow {r : CreateRequest} {w w' : σ} {reply : CreateReply}
      (answered : h.create r w = .ok (reply, w'))
      (large : Amount.max < left + reply.gas.remaining) : Faults h left .overflow

theorem Host.Faults.mono {h : Host σ} {m n : Nat} {e : Fault} (he : h.Faults m e) (hmn : m ≤ n) :
    h.Faults n e := by
  cases he with
  | refund failed => exact .refund failed
  | call failed => exact .call failed
  | create failed => exact .create failed
  | callOverflow answered large => exact .callOverflow answered (by omega)
  | createOverflow answered large => exact .createOverflow answered (by omega)

namespace Machine

variable {h : Host σ} {s t : Machine σ}

theorem steps_of_runFor {n : Nat} (ht : s.runFor h n = .ok t) : h.StepsTo s t := by
  induction n generalizing s with
  | zero =>
    cases ht
    exact .refl
  | succ n ih =>
    by_cases running : s.frame.status = .running
    · rw [runFor_succ running] at ht
      obtain ⟨u, hu, ht⟩ := Except.bind_eq_ok ht
      exact .head hu (ih ht)
    · rw [runFor_ended running] at ht
      cases ht
      exact .refl

theorem Served.solid {r : Request} {x : Except Fault (Machine σ)} (hx : s.Served h True r x)
    (ht : x = .ok t) : t.frame.Solid := by
  have resumed : ∀ {left : Nat} {y : Except Fault Frame} {w : σ}, s.frame.Resumes True left y →
      (y.map fun f => (⟨f, w⟩ : Machine σ)) = .ok t → t.frame.Solid := by
    intro left y w hy hyt
    obtain ⟨f, hf, rfl⟩ := Except.map_eq_ok hyt
    cases hy with
    | goes follows =>
      cases hf
      exact (follows.solid trivial).1
    | outOfRange loose => cases hf
    | overflow large => cases hf
  cases hx with
  | call answered hy => exact resumed hy ht
  | create answered hy => exact resumed hy ht
  | callFails failed => cases ht
  | createFails failed => cases ht

theorem step_solid (hs : s.frame.Solid) (ht : s.step h = .ok t) : t.frame.Solid := by
  have hsteps : s.Steps h True (s.Asking h) (s.step h) := step_steps fun _ => hs
  generalize s.step h = x at hsteps ht
  cases hsteps with
  | goes follows =>
    cases ht
    exact (follows.frame.solid trivial).1
  | ends follows ended =>
    cases ht
    exact (follows.frame.solid trivial).1
  | asks asking follows asked =>
    exact (serve_served (fun hP => (follows.frame.solid hP).1) asked.fits).solid ht
  | outOfRange loose => cases ht
  | refund fails => cases ht

theorem steps_solid (hs : s.frame.Solid) (ht : h.StepsTo s t) : t.frame.Solid := by
  induction ht with
  | refl => exact hs
  | tail _ hstep ih => exact step_solid ih hstep

theorem Served.fails {r : Request} {x : Except Fault (Machine σ)} {e : Fault}
    (hx : s.Served h True r x) (he : x = .error e) : h.Faults s.frame.gas.remaining e := by
  have resumed : ∀ {left : Nat} {y : Except Fault Frame} {w : σ}, s.frame.Resumes True left y →
      (y.map fun f => (⟨f, w⟩ : Machine σ)) = .error e →
      e = .overflow ∧ Amount.max < s.frame.gas.remaining + left := by
    intro left y w hy hye
    obtain rfl := Except.map_eq_error hye
    cases hy with
    | outOfRange loose => exact absurd trivial loose
    | overflow large => exact ⟨rfl, large⟩
  cases hx with
  | call answered hy =>
    obtain ⟨rfl, large⟩ := resumed hy he
    exact .callOverflow answered large
  | create answered hy =>
    obtain ⟨rfl, large⟩ := resumed hy he
    exact .createOverflow answered large
  | callFails failed =>
    cases he
    exact .call failed
  | createFails failed =>
    cases he
    exact .create failed

end Machine

def Host.mute : Host Unit where
  environment := {}
  existence _ := throw {}
  blockHash _ := throw {}
  balance _ := throw {}
  code _ := throw {}
  codeHash _ := throw {}
  readSlot _ _ := throw {}
  writeSlot _ _ _ := throw {}
  selfDestruct _ _ := throw {}
  refund _ w := .ok w
  log _ w := w
  call _ _ := .error .overflow
  create _ _ := .error .overflow

namespace Machine

/-- Code that stores a word and returns no bytes from the largest offset on. -/
def storing : Invocation where
  code := .ofBytes ⟨#[0x60, 0x2a, 0x60, 0, 0x52, 0x60, 0, 0x60, 0, 0x19, 0xf3]⟩
  address := 0x0a
  caller := 0x0b
  value := 0
  rules := .ofHardfork .london

end Machine

end MeteredVM
