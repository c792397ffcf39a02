import MeteredVM.Code

namespace MeteredVM

namespace Opcode

theorem dataAfter_push : ∀ n : Fin 32, dataAfter (push n).byte = n + 1 := by decide

theorem dataAfter_eq_zero {b : UInt8} (hb : ∀ n, b ≠ (push n).byte) : dataAfter b = 0 := by
  apply if_neg
  intro ⟨hlow, hhigh⟩
  rw [UInt8.le_iff_toNat_le] at hlow hhigh
  have hmin : (0x60 : UInt8).toNat = 0x60 := rfl
  have hmax : (0x7f : UInt8).toNat = 0x7f := rfl
  refine hb ⟨b.toNat - 0x60, by omega⟩ (UInt8.toNat_inj.mp ?_)
  have hbyte : (push ⟨b.toNat - 0x60, by omega⟩).byte = 0x60 + UInt8.ofNat (b.toNat - 0x60) := rfl
  rw [hbyte, UInt8.toNat_add, UInt8.toNat_ofNat']
  omega

end Opcode

namespace Bytes

variable {b c : Bytes} {i : Nat}

theorem at0_append_of_lt (h : i < b.size) : (b ++ c).at0 i = b.at0 i := by
  have hlong : i < (b ++ c).size := by
    rw [ByteArray.size_append]
    omega
  rw [at0, at0, dif_pos hlong, dif_pos h, ByteArray.getElem_append_left]

end Bytes

namespace Code

open Opcode

/-- The positions at which instructions begin: the first is that at the start, and each other follows one
before it and the data that belongs to that. -/
inductive Boundary (b : Bytes) : Nat → Prop
  | start : Boundary b 0
  | push {pos : Nat} (n : Fin 32) (before : Boundary b pos) (inside : pos < b.size)
      (byte : b.at0 pos = (Opcode.push n).byte) : Boundary b (pos + 1 + (n + 1))
  | other {pos : Nat} (before : Boundary b pos) (inside : pos < b.size)
      (byte : ∀ n, b.at0 pos ≠ (Opcode.push n).byte) : Boundary b (pos + 1)

namespace Boundary

variable {b c : Bytes} {p q n : Nat}

theorem next (h : Boundary b p) (hp : p < b.size) :
    Boundary b (p + 1 + dataAfter (b.at0 p)) := by
  by_cases hpush : ∃ n, b.at0 p = (Opcode.push n).byte
  · obtain ⟨n, hn⟩ := hpush
    rw [hn, dataAfter_push]
    exact .push n h hp hn
  · have hother : ∀ n, b.at0 p ≠ (Opcode.push n).byte := fun n hn => hpush ⟨n, hn⟩
    rw [dataAfter_eq_zero hother]
    exact .other h hp hother

theorem eq_zero_or_next (h : Boundary b q) :
    q = 0 ∨ ∃ p, Boundary b p ∧ p < b.size ∧ q = p + 1 + dataAfter (b.at0 p) := by
  cases h with
  | start => exact .inl rfl
  | @push p n before inside byte => exact .inr ⟨p, before, inside, by rw [byte, dataAfter_push]⟩
  | @other p before inside byte =>
    exact .inr ⟨p, before, inside, by rw [dataAfter_eq_zero byte, Nat.add_zero]⟩

theorem next_le {p q : Nat} (hp : Boundary b p) (hq : Boundary b q) (hpq : p < q) :
    p + 1 + dataAfter (b.at0 p) ≤ q := by
  obtain rfl | ⟨r, hr, -, hq'⟩ := hq.eq_zero_or_next
  · omega
  obtain hlt | rfl | hgt := Nat.lt_trichotomy p r
  · have hle := next_le hp hr hlt
    omega
  · exact Nat.le_of_eq hq'.symm
  · have hle := next_le hr hp hgt
    omega
termination_by p + q

/-- Up to a position it only depends on the bytes before it. -/
theorem congr (hsame : ∀ i, i < n → b.at0 i = c.at0 i) (hn : n ≤ c.size) (h : Boundary b p)
    (hp : p ≤ n) : Boundary c p := by
  induction h with
  | start => exact .start
  | @push p m before inside byte ih =>
    have hlt : p < n := by omega
    exact .push m (ih (by omega)) (by omega) (by rw [← hsame p hlt, byte])
  | @other p before inside byte ih =>
    have hlt : p < n := by omega
    exact .other (ih (by omega)) (by omega) fun m => by
      rw [← hsame p hlt]
      exact byte m

end Boundary

/-- What the sweep has found after `k` bytes. -/
structure Swept (b : Bytes) (k : Nat) (s : Array Bool × Nat) : Prop where
  size : s.1.size = k
  next : Boundary b (k + s.2)
  /-- The bytes that are due as data begin no instruction. -/
  due : ∀ q, Boundary b q → k ≤ q → k + s.2 ≤ q
  marks : ∀ i, i < k → (s.1[i]?.getD false = true ↔ b.at0 i = 0x5b ∧ Boundary b i)

theorem Swept.sweepByte {b : Bytes} {k : Nat} {s : Array Bool × Nat} (h : Swept b k s)
    (hk : k < b.size) : Swept b (k + 1) (sweepByte s (b.at0 k)) := by
  have hmarks : ∀ m : Bool, (m = true ↔ b.at0 k = 0x5b ∧ Boundary b k) → ∀ i, i < k + 1 →
      ((s.1.push m)[i]?.getD false = true ↔ b.at0 i = 0x5b ∧ Boundary b i) := by
    intro m hm i hi
    rw [Array.getElem?_push, h.size]
    by_cases hlast : i = k
    · rw [if_pos hlast, hlast]
      exact hm
    · rw [if_neg hlast]
      exact h.marks i (by omega)
  obtain ⟨marks, due⟩ := s
  cases due with
  | zero =>
    have hhere : Boundary b k := h.next
    refine ⟨?_, hhere.next hk, fun q hq hlt => hhere.next_le hq hlt, hmarks _ ?_⟩
    · rw [Code.sweepByte, Array.size_push, h.size]
    · rw [beq_iff_eq, and_iff_left hhere]
  | succ due =>
    have hdata : ¬Boundary b k := by
      intro hhere
      have hle := h.due k hhere (Nat.le_refl k)
      simp only at hle
      omega
    refine ⟨?_, ?_, fun q hq hlt => ?_, hmarks _ ?_⟩
    · rw [Code.sweepByte, Array.size_push, h.size]
    · have hnext := h.next
      simp only [Code.sweepByte] at hnext ⊢
      rwa [Nat.add_assoc, Nat.add_comm 1]
    · have hle := h.due q hq (by omega)
      simp only [Code.sweepByte] at hle ⊢
      omega
    · exact ⟨nofun, fun ⟨_, hhere⟩ => absurd hhere hdata⟩

theorem sweep_swept (b : Bytes) : Swept b b.size (b.data.foldl sweepByte (#[], 0)) := by
  apply Array.foldl_induction (motive := Swept b)
  · exact ⟨rfl, .start, fun q _ _ => by omega, fun i hi => absurd hi (Nat.not_lt_zero i)⟩
  · intro i s hs
    have hbyte : b.at0 i = b.data[i] := dif_pos i.isLt
    rw [← hbyte]
    exact hs.sweepByte i.isLt

variable {c : Code} {pos : Nat}

theorem isDestination_iff_padded : c.isDestination pos = true ↔
    pos < c.padded.size ∧ c.padded.at0 pos = 0x5b ∧ Boundary c.padded pos := by
  have hswept := sweep_swept c.padded
  rw [isDestination, c.marks_eq, sweep]
  by_cases hpos : pos < c.padded.size
  · rw [hswept.marks pos hpos, and_iff_right hpos]
  · rw [Array.getElem?_eq_none (by rw [hswept.size]; omega)]
    exact ⟨nofun, fun h => absurd h.1 hpos⟩

theorem at0_padded (c : Code) (i : Nat) : c.padded.at0 i = c.bytes.at0 i := by
  rw [c.padded_eq]
  by_cases hi : i < c.bytes.size
  · exact Bytes.at0_append_of_lt hi
  · have hzero : c.bytes.at0 i = 0 := dif_neg hi
    rw [hzero, Bytes.at0]
    split
    · rw [ByteArray.getElem_append_right (Nat.le_of_not_lt hi)]
      simp [Bytes.zeros, ByteArray.getElem_eq_getElem_data]
    · rfl

theorem boundary_padded_iff (hpos : pos ≤ c.bytes.size) :
    Boundary c.padded pos ↔ Boundary c.bytes pos := by
  have hsize := c.size_padded
  constructor
  · exact fun h => h.congr (fun i _ => c.at0_padded i) (Nat.le_refl _) hpos
  · exact fun h => h.congr (fun i _ => (c.at0_padded i).symm) (by omega) hpos

/-- One may jump to the instructions of the code itself that are marked for it. -/
theorem isDestination_iff : c.isDestination pos = true ↔
    pos < c.bytes.size ∧ c.bytes.at0 pos = 0x5b ∧ Boundary c.bytes pos := by
  have hsize := c.size_padded
  rw [isDestination_iff_padded, at0_padded]
  constructor
  · rintro ⟨-, hbyte, hhere⟩
    have hpos : pos < c.bytes.size := by
      apply Nat.lt_of_not_le
      intro hle
      have hzero : c.bytes.at0 pos = 0 := dif_neg (Nat.not_lt_of_le hle)
      rw [hzero] at hbyte
      cases hbyte
    exact ⟨hpos, hbyte, (boundary_padded_iff (Nat.le_of_lt hpos)).mp hhere⟩
  · intro ⟨hpos, hbyte, hhere⟩
    exact ⟨by omega, hbyte, (boundary_padded_iff (Nat.le_of_lt hpos)).mpr hhere⟩

end Code

end MeteredVM
