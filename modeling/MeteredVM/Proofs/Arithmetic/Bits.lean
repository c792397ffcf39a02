import Mathlib.Tactic.Ring
import MeteredVM.Arithmetic

namespace MeteredVM.Word

variable {size w : Word} {n : Nat}

/-- Below a limit that is an amount itself clamping does not matter. -/
theorem ite_clamp {α : Type} (hn : n < UInt64.size) (f : Nat → α) (d : α) :
    (if w.clamp < n then f w.clamp else d) = if w.toNat < n then f w.toNat else d := by
  by_cases hw : w.toNat < n
  · have hclamp : w.clamp = w.toNat := by
      simp only [clamp]
      omega
    rw [hclamp]
  · have hclamp : ¬w.clamp < n := by
      simp only [clamp]
      omega
    rw [if_neg hw, if_neg hclamp]

section Shifts

theorem shiftLeft_eq (count w : Word) : count.shiftLeft w = w <<< count.toNat := by
  rw [shiftLeft, ite_clamp (by decide) (w <<< ·)]
  by_cases hcount : count.toNat < 256
  · rw [if_pos hcount]
  · rw [if_neg hcount]
    exact (BitVec.shiftLeft_eq_zero (Nat.not_lt.mp hcount)).symm

theorem shiftRight_eq (count w : Word) : count.shiftRight w = w >>> count.toNat := by
  rw [shiftRight, ite_clamp (by decide) (w >>> ·)]
  by_cases hcount : count.toNat < 256
  · rw [if_pos hcount]
  · rw [if_neg hcount]
    exact (BitVec.ushiftRight_eq_zero (Nat.not_lt.mp hcount)).symm

theorem sshiftRight_of_le (hn : 256 ≤ n) :
    w.sshiftRight n = if w.msb then BitVec.allOnes 256 else 0 := by
  apply BitVec.eq_of_getLsbD_eq
  intro i hi
  rw [BitVec.getLsbD_sshiftRight, if_neg (by omega), decide_eq_false (Nat.not_le.mpr hi)]
  cases w.msb with
  | true =>
    rw [if_pos rfl, BitVec.getLsbD_allOnes, decide_eq_true hi]
    rfl
  | false => exact BitVec.getLsbD_zero.symm

theorem signedShiftRight_eq (count w : Word) :
    count.signedShiftRight w = w.sshiftRight count.toNat := by
  rw [signedShiftRight, ite_clamp (by decide) (w.sshiftRight ·)]
  by_cases hcount : count.toNat < 256
  · rw [if_pos hcount]
  · rw [if_neg hcount, sshiftRight_of_le (Nat.not_lt.mp hcount)]

theorem shiftLeft_eq_ofNat (count w : Word) :
    count.shiftLeft w = ofNat (w.toNat * 2 ^ count.toNat) := by
  apply BitVec.eq_of_toNat_eq
  rw [shiftLeft_eq, BitVec.toNat_shiftLeft, Nat.shiftLeft_eq, ofNat, BitVec.toNat_ofNat]

theorem shiftRight_eq_ofNat (count w : Word) :
    count.shiftRight w = ofNat (w.toNat / 2 ^ count.toNat) := by
  rw [shiftRight_eq, ofNat, ← Nat.shiftRight_eq_div_pow, ← BitVec.toNat_ushiftRight,
    BitVec.ofNat_toNat, BitVec.setWidth_eq]

theorem signedShiftRight_eq_ofInt (count w : Word) :
    count.signedShiftRight w = BitVec.ofInt 256 (w.toInt.fdiv (2 ^ count.toNat)) := by
  have hpower : (0 : Int) ≤ 2 ^ count.toNat := Int.pow_nonneg (by decide)
  have hcast : ((2 ^ count.toNat : Nat) : Int) = 2 ^ count.toNat := Nat.cast_pow 2 count.toNat
  rw [Int.fdiv_eq_ediv_of_nonneg _ hpower, ← hcast, ← Int.shiftRight_eq_div_pow,
    ← BitVec.toInt_sshiftRight, BitVec.ofInt_toInt, signedShiftRight_eq]

end Shifts

theorem byteAt_eq_ofNat (position w : Word) : position.byteAt w =
    if position.toNat < 32 then ofNat (w.toNat / 256 ^ (31 - position.toNat) % 256) else 0 := by
  rw [byteAt, ite_clamp (by decide) fun k => w >>> (8 * (31 - k)) &&& 0xff]
  have hdigit : 256 ^ (31 - position.toNat) = 2 ^ (8 * (31 - position.toNat)) := by
    rw [Nat.pow_mul]
  have hmask : (0xff : Word).toNat = 2 ^ 8 - 1 := rfl
  rw [hdigit, ← Nat.shiftRight_eq_div_pow, ← BitVec.toNat_ushiftRight,
    ← Nat.and_two_pow_sub_one_eq_mod _ 8, ← hmask, ← BitVec.toNat_and, ofNat, BitVec.ofNat_toNat,
    BitVec.setWidth_eq]

section SignExtension

theorem getLsbD_mask (hn : n < 256) (i : Nat) :
    (BitVec.ofNat 256 (1 <<< n) - 1).getLsbD i = decide (i < n) := by
  have hpower : (2 : Nat) ^ n < 2 ^ 256 := Nat.pow_lt_pow_right (by decide) hn
  have hone : (1 : Word).toNat = 1 := rfl
  have hshift : (BitVec.ofNat 256 (1 <<< n)).toNat = 2 ^ n := by
    rw [BitVec.toNat_ofNat, Nat.shiftLeft_eq, Nat.one_mul, Nat.mod_eq_of_lt hpower]
  have hle : (1 : Word) ≤ BitVec.ofNat 256 (1 <<< n) := by
    rw [BitVec.le_def, hshift]
    exact Nat.one_le_two_pow
  rw [← BitVec.testBit_toNat, BitVec.toNat_sub_of_le hle, hshift, hone, Nat.testBit_two_pow_sub_one]

theorem signExtend_eq_signExtend (hsize : size.toNat < 31) :
    size.signExtend w = (w.setWidth (8 * (size.toNat + 1))).signExtend 256 := by
  have hlt : size < 31 := hsize
  have htop : 8 * size.toNat + 7 < 256 := by omega
  have hlast : 8 * (size.toNat + 1) - 1 = 8 * size.toNat + 7 := by omega
  have hmask := getLsbD_mask htop
  rw [signExtend, if_pos hlt]
  apply BitVec.eq_of_getLsbD_eq
  intro i hi
  rw [BitVec.getLsbD_signExtend, BitVec.getLsbD_setWidth, BitVec.msb_setWidth, hlast]
  by_cases hsign : w.getLsbD (8 * size.toNat + 7) = true
  · rw [if_pos hsign, BitVec.natCast_eq_ofNat, BitVec.getLsbD_or, BitVec.getLsbD_not, hmask]
    grind
  · rw [if_neg hsign, BitVec.natCast_eq_ofNat, BitVec.getLsbD_and, hmask]
    grind

theorem signExtend_eq_ofInt (size w : Word) : size.signExtend w =
    if size.toNat < 31 then BitVec.ofInt 256 (w.setWidth (8 * (size.toNat + 1))).toInt else w := by
  by_cases hsize : size.toNat < 31
  · rw [if_pos hsize, signExtend_eq_signExtend hsize]
    rfl
  · have hnot : ¬size < 31 := hsize
    rw [if_neg hsize, signExtend, if_neg hnot]

end SignExtension

end MeteredVM.Word
