import Mathlib.Data.Nat.Digits.Lemmas
import MeteredVM.Proofs.Frame.Compute

namespace MeteredVM

open Exec Instruction

/-- The number of bytes of a word from the first one on that is not zero. -/
def Word.significantBytes (w : Word) : Nat := (Nat.digits 256 w.toNat).length

theorem Amount.sub_of_le {a b : Nat} (h : b ≤ a) : sub a b = .ok (a - b) := if_pos h

namespace Price

variable {v w : Word} {n : Nat}

section TopBit

/-- If the limbs above are zero, the next one holds all that stands above the limbs below. -/
theorem toNat_limb (hw : w.toNat < 2 ^ (64 * (n + 1))) :
    (w.extractLsb' (64 * n) 64).toNat = w.toNat / 2 ^ (64 * n) := by
  have hlt : w.toNat / 2 ^ (64 * n) < 2 ^ 64 := by
    rw [Nat.div_lt_iff_lt_mul (Nat.two_pow_pos _), ← Nat.pow_add, Nat.add_comm]
    exact hw
  rw [BitVec.extractLsb'_toNat, Nat.shiftRight_eq_div_pow, Nat.mod_eq_of_lt hlt]

theorem limb_eq_zero_iff (hw : w.toNat < 2 ^ (64 * (n + 1))) :
    w.extractLsb' (64 * n) 64 = 0 ↔ w.toNat < 2 ^ (64 * n) := by
  rw [← Nat.div_eq_zero_iff_lt (Nat.two_pow_pos _), ← toNat_limb hw]
  exact BitVec.toNat_inj.symm

theorem log2_limb {limb : BitVec 64} (hlimb : limb ≠ 0) :
    Nat.log2 limb.toNat + limb.clz.toNat = 63 := by
  have hlt : limb.clz.toNat < 64 := BitVec.lt_def.mp (BitVec.clz_lt_iff_ne_zero.mpr hlimb)
  have hplace : 63 - limb.clz.toNat + 1 = 64 - limb.clz.toNat := by omega
  have hlog : Nat.log2 limb.toNat = 63 - limb.clz.toNat := by
    refine (Nat.log2_eq_iff (BitVec.toNat_ne.mp hlimb)).mpr ⟨?_, ?_⟩
    · exact BitVec.two_pow_sub_clz_le_toNat_of_ne_zero (by decide) hlimb
    · rw [hplace]
      exact BitVec.toNat_lt_two_pow_sub_clz
  omega

/-- Of the bits that are left at the first limb that is not zero, its leading zeros are those above the
highest bit of the word. -/
theorem log2_add_clz (hw : w.toNat < 2 ^ (64 * (n + 1))) (hlimb : w.extractLsb' (64 * n) 64 ≠ 0) :
    Nat.log2 w.toNat + 1 + (w.extractLsb' (64 * n) 64).clz.toNat = 64 * (n + 1) := by
  have htop : 2 ^ (64 * n) ≤ w.toNat := Nat.not_lt.mp (mt (limb_eq_zero_iff hw).mpr hlimb)
  have hlow : 64 * n ≤ Nat.log 2 w.toNat := Nat.le_log_of_pow_le (by decide) htop
  have hlog := log2_limb hlimb
  rw [toNat_limb hw, Nat.log2_eq_log_two, Nat.log_div_base_pow] at hlog
  rw [Nat.log2_eq_log_two]
  omega

-- With `n` limbs to go there are `64 * n` bits left, so none of the three subtractions is refused, and
-- as a limb that is not zero has a bit, the count is never down to zero before the last one.
theorem topBit_go (hw : w ≠ 0) (hlow : w.toNat < 2 ^ (64 * n)) :
    topBit.go w n (64 * n) = .ok (Nat.log2 w.toNat) := by
  induction n with
  | zero => exact absurd (Nat.lt_one_iff.mp hlow) (BitVec.toNat_ne.mp hw)
  | succ n ih =>
    rw [topBit.go]
    by_cases hlimb : w.extractLsb' (64 * n) 64 = 0
    · rw [if_pos hlimb, Amount.sub_of_le (by omega)]
      exact ih ((limb_eq_zero_iff hlow).mp hlimb)
    · have hcount : Amount.sub (64 * (n + 1)) (w.extractLsb' (64 * n) 64).clz.toNat =
          .ok (Nat.log2 w.toNat + 1) := by
        rw [← log2_add_clz hlow hlimb, Amount.sub_of_le (Nat.le_add_left _ _), Nat.add_sub_cancel]
      rw [if_neg hlimb, hcount]
      change (if Nat.log2 w.toNat + 1 = 0 then .ok (Nat.log2 w.toNat + 1)
        else Amount.sub (Nat.log2 w.toNat + 1) 1) = _
      rw [if_neg (Nat.succ_ne_zero _)]
      exact Amount.sub_of_le (Nat.succ_pos _)

theorem topBit_eq (hw : w ≠ 0) : topBit w = .ok (Nat.log2 w.toNat) := topBit_go hw w.isLt

end TopBit

section SignificantBytes

theorem significantBytes_eq (hw : w ≠ 0) : w.significantBytes = Nat.log2 w.toNat / 8 + 1 := by
  rw [Word.significantBytes, Nat.length_digits 256 w.toNat (by decide) (BitVec.toNat_ne.mp hw),
    Nat.log2_eq_log_two, ← Nat.log_pow_left]

theorem significantBytes_le (w : Word) : w.significantBytes ≤ 32 :=
  (Nat.digits_length_le_iff (by decide) w.toNat).mpr w.isLt

theorem significantBytes_mono (h : v ≤ w) : v.significantBytes ≤ w.significantBytes :=
  Nat.le_length_digits_le 256 v.toNat w.toNat h

theorem exp_eq (r : Rules) (w : Word) :
    exp r w = some (10 + (if r.since .spuriousDragon then 50 else 10) * w.significantBytes) := by
  by_cases hw : w = 0
  · rw [hw]
    rfl
  have hrate : (if r.since .spuriousDragon then 50 else 10) ≤ 50 := by
    split <;> decide
  have hfits : 10 + (if r.since .spuriousDragon then 50 else 10) * w.significantBytes ≤ Amount.max :=
    calc 10 + (if r.since .spuriousDragon then 50 else 10) * w.significantBytes
      _ ≤ 10 + 50 * 32 := Nat.add_le_add_left (Nat.mul_le_mul hrate (significantBytes_le w)) 10
      _ ≤ Amount.max := by decide
  rw [significantBytes_eq hw] at hfits ⊢
  rw [exp, if_neg hw, topBit_eq hw]
  exact if_pos hfits

theorem exp_mono (r : Rules) (h : v ≤ w) :
    ∃ low high, exp r v = some low ∧ exp r w = some high ∧ low ≤ high := by
  refine ⟨_, _, exp_eq r v, exp_eq r w, Nat.add_le_add_left ?_ 10⟩
  exact Nat.mul_le_mul_left _ (significantBytes_mono h)

end SignificantBytes

end Price

namespace Instruction

variable {f : Frame} {x y : Word} {rest : List Word} {cost : Nat}

/-- The base is taken off the stack before the exponent is paid for. -/
theorem exp_eq_pay (hstack : f.stack.items = x :: y :: rest) :
    exp f = (Local.pay (Price.exp f.rules y) >>= fun _ => Local.setTop (x.power y))
      { f with stack := ⟨y :: rest⟩ } := by
  simp only [exp, Bind.bind, EStateM.bind, top2_ok hstack]
  rfl

theorem exp_ok (hstack : f.stack.items = x :: y :: rest) (hprice : Price.exp f.rules y = some cost)
    (hcost : cost ≤ f.gas.remaining) :
    exp f = .ok () { f with
      gas := { f.gas with remaining := f.gas.remaining - cost }
      stack := ⟨x.power y :: rest⟩ } := by
  rw [exp_eq_pay hstack]
  simp only [Bind.bind, EStateM.bind, pay_ok (f := { f with stack := ⟨y :: rest⟩ }) hprice hcost]
  rfl

theorem exp_error (hstack : f.stack.items = x :: y :: rest) (hprice : Price.exp f.rules y = some cost)
    (hcost : f.gas.remaining < cost) :
    exp f = .error (.status .outOfGas) { f with stack := ⟨y :: rest⟩ } := by
  rw [exp_eq_pay hstack]
  simp only [Bind.bind, EStateM.bind, pay_error (f := { f with stack := ⟨y :: rest⟩ }) hprice hcost]

end Instruction

namespace Machine

/-- The count of the bits of a word that is not zero ends at its binary logarithm, and on the way none of
its subtractions is refused. So under all rules every exponent has a price: 10, and for each significant byte
50 since Spurious Dragon and 10 before. It does not fall as the exponent grows. A step that raises to a power
takes this price and nothing else, and without the gas for it the frame ends. -/
theorem exponent_price :
    (∀ w : Word, w ≠ 0 → Price.topBit w = .ok (Nat.log2 w.toNat)) ∧
    (∀ (r : Rules) (w : Word), Price.exp r w =
      some (10 + (if r.since .spuriousDragon then 50 else 10) * w.significantBytes)) ∧
    (∀ (r : Rules) (v w : Word), v ≤ w →
      ∃ low high, Price.exp r v = some low ∧ Price.exp r w = some high ∧ low ≤ high) ∧
    ∀ (σ : Type) (h : Host σ) (s : Machine σ) (base exponent : Word) (rest : List Word),
      Opcode.exp.byte = s.frame.nextByte → s.frame.stack.items = base :: exponent :: rest →
        ∃ cost, Price.exp s.frame.rules exponent = some cost ∧
          (cost ≤ s.frame.gas.remaining → s.step h = .ok ⟨{ s.frame.charged .exp with
            gas := { s.frame.gas with remaining := s.frame.gas.remaining - cost }
            stack := ⟨base.power exponent :: rest⟩ }, s.world⟩) ∧
          (s.frame.gas.remaining < cost → s.step h = .ok ⟨{ s.frame.charged .exp with
            status := .outOfGas
            stack := ⟨exponent :: rest⟩ }, s.world⟩) := by
  refine ⟨fun w hw => Price.topBit_eq hw, Price.exp_eq, fun r v w hvw => Price.exp_mono r hvw, ?_⟩
  intro σ h s base exponent rest hbyte hstack
  have hprice := Price.exp_eq s.frame.rules exponent
  refine ⟨_, hprice, fun hcost => ?_, fun hcost => ?_⟩
  · have hok := exp_ok (f := s.frame.charged .exp) hstack hprice hcost
    rw [step_charged hbyte (Nat.zero_le _)]
    simp only [settle, Opcode.run, here, hok]
    rfl
  · have herror := exp_error (f := s.frame.charged .exp) hstack hprice hcost
    rw [step_charged hbyte (Nat.zero_le _)]
    simp only [settle, Opcode.run, here, herror]

/-- A frame about to raise -1 to the least exponent that has a bit in the second limb. -/
def raising (limit : Nat) : Frame :=
  { Frame.start { storing with code := .ofBytes ⟨#[0x0a]⟩ } limit with
    stack := ⟨[-1, 0x10000000000000000]⟩ }

theorem exponent_price_second_limb :
    (0x10000000000000000 : Word) ≠ 0 ∧ Price.topBit 0x10000000000000000 = .ok 64 ∧
    (0xffffffffffffffff : Word) ≤ 0x10000000000000000 ∧
    (∃ low high, Price.exp (.ofHardfork .london) 0xffffffffffffffff = some low ∧
      Price.exp (.ofHardfork .london) 0x10000000000000000 = some high ∧ low ≤ high) ∧
    (∀ limit, Opcode.exp.byte = (raising limit).nextByte ∧
      (raising limit).stack.items = [-1, 0x10000000000000000]) ∧
    460 ≤ (raising 500).gas.remaining ∧
      step .mute ⟨raising 500, ()⟩ = .ok ⟨{ (raising 500).charged .exp with
        gas := { (raising 500).gas with remaining := 40 }
        stack := ⟨[1]⟩ }, ()⟩ ∧
    (raising 459).gas.remaining < 460 ∧
      step .mute ⟨raising 459, ()⟩ = .ok ⟨{ (raising 459).charged .exp with
        status := .outOfGas
        stack := ⟨[0x10000000000000000]⟩ }, ()⟩ := by
  obtain ⟨htop, hprice, hmono, hstep⟩ := exponent_price
  have hcost : Price.exp (.ofHardfork .london) 0x10000000000000000 = some 460 := hprice _ _
  have hpower : (-1 : Word).power 0x10000000000000000 = 1 := by decide +kernel
  have hbyte : ∀ limit, Opcode.exp.byte = (raising limit).nextByte := fun _ => rfl
  refine ⟨by decide, htop _ (by decide), by decide, hmono _ _ _ (by decide),
    fun limit => ⟨hbyte limit, rfl⟩, by decide, ?_, by decide, ?_⟩
  · obtain ⟨cost, hfound, hpaid, -⟩ := hstep Unit .mute ⟨raising 500, ()⟩ _ _ [] (hbyte 500) rfl
    obtain rfl : 460 = cost := Option.some.inj (hcost.symm.trans hfound)
    rw [← hpower]
    exact hpaid (by decide)
  · obtain ⟨cost, hfound, -, hunpaid⟩ := hstep Unit .mute ⟨raising 459, ()⟩ _ _ [] (hbyte 459) rfl
    obtain rfl : 460 = cost := Option.some.inj (hcost.symm.trans hfound)
    exact hunpaid (by decide)

end Machine

end MeteredVM
