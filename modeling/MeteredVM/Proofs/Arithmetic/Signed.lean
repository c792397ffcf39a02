import MeteredVM.Arithmetic

namespace MeteredVM.Word

variable {a b w : Word}

section Sign

theorem sign_of_ne_zero (hw : w ≠ 0) : w.sign = if w.msb then .minus else .plus := by
  rw [sign, if_neg hw]

theorem sign_eq_zero : w.sign = .zero ↔ w = 0 := by
  simp only [sign]
  by_cases hzero : w = 0
  · subst hzero
    decide
  · by_cases hneg : w.msb = true <;> simp only [hneg, hzero, if_true, if_false, reduceCtorEq]

theorem clearSign_eq (hw : w < least) : w.clearSign = w := by
  have hmsb : w.getLsbD 255 = false := (BitVec.lt_intMin_iff_msb_eq_false (by decide)).mp hw
  apply BitVec.eq_of_getLsbD_eq
  intro i hi
  simp only [clearSign, least, BitVec.getLsbD_and, BitVec.getLsbD_not, BitVec.getLsbD_intMin, hi]
  by_cases hlast : i = 255
  · subst hlast
    rw [hmsb, Bool.false_and]
  · simp [hlast]

end Sign

section Magnitude

theorem neg_least : -least = least := BitVec.neg_intMin

theorem magnitude_le (w : Word) : w.magnitude ≤ least := by
  simp only [magnitude]
  by_cases hneg : w.msb = true
  · rw [if_pos hneg]
    exact BitVec.neg_le_intMin_of_msb_eq_true hneg
  · rw [if_neg hneg]
    exact BitVec.le_intMin_of_msb_eq_false (Bool.eq_false_iff.mpr hneg)

theorem magnitude_eq_zero : w.magnitude = 0 ↔ w = 0 := by
  simp only [magnitude]
  by_cases hneg : w.msb = true <;> simp [hneg]

theorem magnitude_eq_least : w.magnitude = least ↔ w = least := by
  simp only [magnitude]
  by_cases hneg : w.msb = true
  · rw [if_pos hneg]
    exact BitVec.neg_eq_intMin
  · rw [if_neg hneg]

theorem quotient_lt (h : ¬(a.magnitude = least ∧ b.magnitude = 1)) (hb : b ≠ 0) :
    a.magnitude / b.magnitude < least := by
  have hmin : least.toNat = 2 ^ 255 := BitVec.toNat_intMin_of_pos (by decide)
  have hle : a.magnitude.toNat ≤ 2 ^ 255 := hmin ▸ magnitude_le a
  have hpos : b.magnitude.toNat ≠ 0 := fun hzero =>
    hb (magnitude_eq_zero.mp (BitVec.eq_of_toNat_eq hzero))
  rw [BitVec.lt_def, BitVec.toNat_udiv, hmin]
  by_cases hone : b.magnitude.toNat = 1
  · have hne : a.magnitude.toNat ≠ 2 ^ 255 := fun heq =>
      h ⟨BitVec.eq_of_toNat_eq (heq.trans hmin.symm), BitVec.eq_of_toNat_eq hone⟩
    rw [hone, Nat.div_one]
    omega
  · have hhalf : a.magnitude.toNat / b.magnitude.toNat ≤ a.magnitude.toNat / 2 :=
      Nat.div_le_div_left (by omega) (by decide)
    omega

theorem remainder_lt (hb : b ≠ 0) : a.magnitude % b.magnitude < least := by
  have hle : b.magnitude.toNat ≤ least.toNat := magnitude_le b
  have hpos : b.magnitude.toNat ≠ 0 := fun hzero =>
    hb (magnitude_eq_zero.mp (BitVec.eq_of_toNat_eq hzero))
  rw [BitVec.lt_def, BitVec.toNat_umod]
  exact Nat.lt_of_lt_of_le (Nat.mod_lt _ (Nat.pos_of_ne_zero hpos)) hle

end Magnitude

section Division

theorem sdiv_eq_magnitude (a b : Word) :
    a.sdiv b = if a.msb = b.msb then a.magnitude / b.magnitude else -(a.magnitude / b.magnitude) := by
  rw [BitVec.sdiv_eq]
  simp only [magnitude]
  cases a.msb <;> cases b.msb <;> rfl

theorem srem_eq_magnitude (a b : Word) :
    a.srem b = if a.msb then -(a.magnitude % b.magnitude) else a.magnitude % b.magnitude := by
  rw [BitVec.srem_eq]
  simp only [magnitude]
  cases a.msb <;> cases b.msb <;> rfl

/-- The quotients by one and minus one, which for the least word are the same. -/
theorem least_sdiv (hb : b.magnitude = 1) : least.sdiv b = least := by
  have hone : least / (1 : Word) = least := BitVec.udiv_one
  rw [sdiv_eq_magnitude, magnitude_eq_least.mpr rfl, hb, hone, neg_least, ite_self]

theorem signedDiv_eq_sdiv (a b : Word) : a.signedDiv b = a.sdiv b := by
  simp only [signedDiv, sign_eq_zero]
  by_cases hb : b = 0
  · rw [if_pos hb, hb]
    exact BitVec.sdiv_zero.symm
  rw [if_neg hb]
  by_cases hleast : a.magnitude = least ∧ b.magnitude = 1
  · obtain ⟨hmin, hone⟩ := hleast
    rw [if_pos ⟨hmin, hone⟩, magnitude_eq_least.mp hmin, least_sdiv hone, neg_least, ite_self]
  rw [if_neg hleast, clearSign_eq (quotient_lt hleast hb), sdiv_eq_magnitude]
  by_cases hq : a.magnitude / b.magnitude = 0
  · simp [hq]
  rw [if_neg hq]
  have ha : a ≠ 0 := fun hzero =>
    hq (by rw [magnitude_eq_zero.mpr hzero]; exact BitVec.zero_udiv)
  -- Neither sign is zero, so the signs agree exactly if the bits do.
  rw [sign_of_ne_zero ha, sign_of_ne_zero hb]
  cases a.msb <;> cases b.msb <;> rfl

theorem signedMod_eq_srem (hb : b ≠ 0) : a.signedMod b = a.srem b := by
  simp only [signedMod, sign_eq_zero, hb, or_false]
  by_cases ha : a = 0
  · rw [if_pos ha, ha]
    exact BitVec.zero_srem.symm
  rw [if_neg ha, clearSign_eq (remainder_lt hb), srem_eq_magnitude]
  by_cases hr : a.magnitude % b.magnitude = 0
  · simp [hr]
  rw [if_neg hr, sign_of_ne_zero ha]
  cases a.msb <;> rfl

theorem sdiv_eq_ofInt (a b : Word) : a.sdiv b = BitVec.ofInt 256 (a.toInt.tdiv b.toInt) := by
  rw [← BitVec.toInt_inj, BitVec.toInt_sdiv, BitVec.toInt_ofInt]

theorem srem_eq_ofInt (a b : Word) : a.srem b = BitVec.ofInt 256 (a.toInt.tmod b.toInt) := by
  rw [← BitVec.toInt_srem, BitVec.ofInt_toInt]

theorem signedMod_zero (a : Word) : a.signedMod 0 = 0 := by
  simp only [signedMod, sign_eq_zero, or_true, if_true]

end Division

section Order

theorem rank_sign (w : Word) :
    w.sign.rank = 0 ∧ w.toInt < 0 ∨ w.sign.rank = 1 ∧ w.toInt = 0 ∨
      w.sign.rank = 2 ∧ 0 < w.toInt := by
  have hzero : w = 0 ↔ w.toInt = 0 := BitVec.toInt_inj.symm
  simp only [sign, BitVec.msb_eq_toInt, decide_eq_true_eq, hzero]
  by_cases hneg : w.toInt < 0
  · exact .inl ⟨by rw [if_pos hneg]; rfl, hneg⟩
  by_cases hz : w.toInt = 0
  · exact .inr (.inl ⟨by rw [if_neg hneg, if_pos hz]; rfl, hz⟩)
  · exact .inr (.inr ⟨by rw [if_neg hneg, if_neg hz]; rfl, by omega⟩)

theorem toInt_lt_of_rank_lt (h : a.sign.rank < b.sign.rank) : a.toInt < b.toInt := by
  have ha := rank_sign a
  have hb := rank_sign b
  omega

theorem msb_eq_of_rank_eq (h : a.sign.rank = b.sign.rank) : a.msb = b.msb := by
  have ha := rank_sign a
  have hb := rank_sign b
  have hneg : a.toInt < 0 ↔ b.toInt < 0 := by omega
  rw [BitVec.msb_eq_toInt, BitVec.msb_eq_toInt, decide_eq_decide.mpr hneg]

theorem compare_of_msb_eq (h : a.msb = b.msb) : compare a b = compare a.toInt b.toInt := by
  have heq : a = b ↔ a.toInt = b.toInt := BitVec.toInt_inj.symm
  have hlt : a < b ↔ a.toInt < b.toInt := by
    rw [BitVec.lt_def, BitVec.toInt_eq_msb_cond, BitVec.toInt_eq_msb_cond, h]
    by_cases hneg : b.msb = true
    · rw [if_pos hneg, if_pos hneg]
      omega
    · rw [if_neg hneg, if_neg hneg]
      omega
  simp only [compare, compareOfLessAndEq, hlt, heq]

theorem signedCompare_eq (a b : Word) : a.signedCompare b = compare a.toInt b.toInt := by
  rw [signedCompare]
  obtain hlt | heq | hgt := Nat.lt_trichotomy a.sign.rank b.sign.rank
  · rw [Nat.compare_eq_lt.mpr hlt, Int.compare_eq_lt.mpr (toInt_lt_of_rank_lt hlt)]
    rfl
  · rw [Nat.compare_eq_eq.mpr heq, compare_of_msb_eq (msb_eq_of_rank_eq heq)]
    rfl
  · rw [Nat.compare_eq_gt.mpr hgt, Int.compare_eq_gt.mpr (toInt_lt_of_rank_lt hgt)]
    rfl

end Order

/-- Division and order of signed words are those of the integers they stand for, the quotient rounded
toward zero and modulo the size of a word, the remainder with the sign of the dividend. -/
theorem signed_arithmetic (a b : Word) :
    a.signedDiv b = (if b = 0 then 0 else BitVec.ofInt 256 (a.toInt.tdiv b.toInt)) ∧
      a.signedMod b = (if b = 0 then 0 else BitVec.ofInt 256 (a.toInt.tmod b.toInt)) ∧
      a.signedCompare b = compare a.toInt b.toInt ∧
      least.signedDiv (-1) = least ∧
      (b ≠ 0 → a.signedDiv b * b + a.signedMod b = a) := by
  have hdiv : a.signedDiv b = if b = 0 then 0 else BitVec.ofInt 256 (a.toInt.tdiv b.toInt) := by
    by_cases hb : b = 0
    · rw [if_pos hb, hb, signedDiv_eq_sdiv]
      exact BitVec.sdiv_zero
    · rw [if_neg hb, signedDiv_eq_sdiv, sdiv_eq_ofInt]
  have hmod : a.signedMod b = if b = 0 then 0 else BitVec.ofInt 256 (a.toInt.tmod b.toInt) := by
    by_cases hb : b = 0
    · rw [if_pos hb, hb, signedMod_zero]
    · rw [if_neg hb, signedMod_eq_srem hb, srem_eq_ofInt]
  refine ⟨hdiv, hmod, signedCompare_eq a b, ?_, fun hb => ?_⟩
  · rw [signedDiv_eq_sdiv, least_sdiv (by decide)]
  · rw [hdiv, hmod, if_neg hb, if_neg hb]
    calc BitVec.ofInt 256 (a.toInt.tdiv b.toInt) * b + BitVec.ofInt 256 (a.toInt.tmod b.toInt)
        = BitVec.ofInt 256 (a.toInt.tdiv b.toInt * b.toInt + a.toInt.tmod b.toInt) := by
          rw [BitVec.ofInt_add, BitVec.ofInt_mul, BitVec.ofInt_toInt]
      _ = BitVec.ofInt 256 a.toInt := by rw [Int.mul_comm, Int.mul_tdiv_add_tmod]
      _ = a := BitVec.ofInt_toInt

theorem signed_arithmetic_least :
    (-1 : Word) ≠ 0 ∧ least.signedDiv (-1) * (-1) + least.signedMod (-1) = least :=
  have hne : (-1 : Word) ≠ 0 := by decide
  ⟨hne, (signed_arithmetic least (-1)).2.2.2.2 hne⟩

end MeteredVM.Word
