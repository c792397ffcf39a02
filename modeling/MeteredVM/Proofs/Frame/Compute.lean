import MeteredVM.Proofs.Arithmetic.Bits
import MeteredVM.Proofs.Frame.Table

namespace MeteredVM

open Exec Instruction

variable {σ : Type}

namespace Instruction

variable {f : Frame} {u : Word → Word → Word} {x y : Word} {rest : List Word}
  {price : Option Nat} {cost : Nat}

theorem top2_ok (hstack : f.stack.items = x :: y :: rest) :
    Local.top2 f = .ok (x, y) { f with stack := ⟨y :: rest⟩ } := by
  obtain ⟨invocation, pc, status, gas, memory, ⟨items⟩, returnData, output⟩ := f
  cases hstack
  rfl

theorem binary_ok (hstack : f.stack.items = x :: y :: rest) :
    binary u f = .ok () { f with stack := ⟨u x y :: rest⟩ } := by
  obtain ⟨invocation, pc, status, gas, memory, ⟨items⟩, returnData, output⟩ := f
  cases hstack
  rfl

theorem ensure_ok {c : Bool} {e : Status} (hc : c = true) : Local.ensure c e f = .ok () f := by
  rw [hc]
  rfl

theorem since_ok {fork : Hardfork} (hfork : f.rules.since fork = true) :
    Local.since fork f = .ok () f :=
  ensure_ok hfork

theorem pay_ok (hprice : price = some cost) (hcost : cost ≤ f.gas.remaining) : Local.pay price f =
    .ok () { f with gas := { f.gas with remaining := f.gas.remaining - cost } } := by
  rw [hprice]
  simp only [Local.pay, Local.charge, Gas.charge?, if_pos hcost]

theorem pay_error (hprice : price = some cost) (hcost : f.gas.remaining < cost) :
    Local.pay price f = .error (.status .outOfGas) f := by
  rw [hprice]
  simp only [Local.pay, Local.charge, Gas.charge?, if_neg (Nat.not_le.mpr hcost)]

end Instruction

namespace Machine

variable {h : Host σ} {s : Machine σ} {op : Opcode} {u : Word → Word → Word} {x y : Word}
  {rest : List Word}

/-- If the opcode is the next one and there is gas for it, the step leaves these words on the stack and does
nothing else. -/
def Computes (h : Host σ) (s : Machine σ) (op : Opcode) (items : List Word) : Prop :=
  op.byte = s.frame.nextByte → op.info.gas ≤ s.frame.gas.remaining →
    s.step h = .ok ⟨{ s.frame.charged op with stack := ⟨items⟩ }, s.world⟩

theorem Computes.of_here {x : Local Unit} {items : List Word} (hrun : op.run h = here x)
    (hx : x (s.frame.charged op) = .ok () { s.frame.charged op with stack := ⟨items⟩ }) :
    s.Computes h op items := by
  intro hbyte hgas
  rw [step_charged hbyte hgas, hrun]
  simp only [settle, here, hx]

theorem computes_binary (hrun : op.run h = here (binary u))
    (hstack : s.frame.stack.items = x :: y :: rest) : s.Computes h op (u x y :: rest) :=
  .of_here hrun (binary_ok hstack)

theorem computes_binarySince {fork : Hardfork} (hrun : op.run h = here (binarySince fork u))
    (hfork : s.frame.rules.since fork = true) (hstack : s.frame.stack.items = x :: y :: rest) :
    s.Computes h op (u x y :: rest) := by
  refine .of_here hrun ?_
  have hcharged : (s.frame.charged op).rules.since fork = true := hfork
  simp only [binarySince, Bind.bind, EStateM.bind, since_ok hcharged]
  exact binary_ok hstack

/-- Shifts multiply and divide by powers of two, for every word as the count: to the left modulo the size of
a word, to the right rounding down, by the signed value for the signed one. A byte is a digit to the base
256, the most significant one first. A sign is extended from the low bytes, of which the first operand
counts all but one. -/
theorem bit_opcodes (h : Host σ) (s : Machine σ) (x v : Word) (rest : List Word)
    (hstack : s.frame.stack.items = x :: v :: rest) :
    (s.frame.rules.since .constantinople = true →
      s.Computes h .shiftLeft (.ofNat (v.toNat * 2 ^ x.toNat) :: rest) ∧
      s.Computes h .shiftRight (.ofNat (v.toNat / 2 ^ x.toNat) :: rest) ∧
      s.Computes h .signedShiftRight (.ofInt 256 (v.toInt.fdiv (2 ^ x.toNat)) :: rest)) ∧
    s.Computes h .byteAt
      ((if x.toNat < 32 then .ofNat (v.toNat / 256 ^ (31 - x.toNat) % 256) else 0) :: rest) ∧
    s.Computes h .signExtend
      ((if x.toNat < 31 then .ofInt 256 (v.setWidth (8 * (x.toNat + 1))).toInt else v) :: rest) := by
  rw [← Word.shiftLeft_eq_ofNat, ← Word.shiftRight_eq_ofNat, ← Word.signedShiftRight_eq_ofInt,
    ← Word.byteAt_eq_ofNat, ← Word.signExtend_eq_ofInt]
  refine ⟨fun hfork => ⟨?_, ?_, ?_⟩, computes_binary rfl hstack, computes_binary rfl hstack⟩
  · exact computes_binarySince rfl hfork hstack
  · exact computes_binarySince rfl hfork hstack
  · exact computes_binarySince rfl hfork hstack

def shifting : Frame :=
  { Frame.start { storing with code := .ofBytes ⟨#[0x1d]⟩ } 3 with stack := ⟨[2, -17]⟩ }

theorem bit_opcodes_shifting :
    shifting.stack.items = [2, -17] ∧ shifting.rules.since .constantinople = true ∧
      step .mute ⟨shifting, ()⟩ =
        .ok ⟨{ shifting.charged .signedShiftRight with stack := ⟨[-5]⟩ }, ()⟩ := by
  have hstack : shifting.stack.items = [2, -17] := rfl
  have hfork : shifting.rules.since .constantinople = true := rfl
  obtain ⟨hshifts, -⟩ := bit_opcodes .mute ⟨shifting, ()⟩ 2 (-17) [] hstack
  obtain ⟨-, -, hsigned⟩ := hshifts hfork
  exact ⟨hstack, hfork, hsigned (by decide) (by decide)⟩

end Machine

end MeteredVM
