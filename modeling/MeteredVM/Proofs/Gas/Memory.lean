import MeteredVM.Gas.Meter
import MeteredVM.Proofs.Outcome

namespace MeteredVM

namespace Price

def maxWords : Nat := 0xFFFFFFFF

theorem memory_eq {n : Nat} (hn : n ≤ maxWords) : memory n = 3 * n + n * n / 512 := by
  have hsq : n * n ≤ maxWords * maxWords := Nat.mul_le_mul hn hn
  have hmax : Amount.max = 18446744073709551615 := rfl
  simp only [maxWords] at hn hsq
  simp only [memory, Amount.addClamped, Amount.mulClamped, hmax]
  omega

theorem memory_lt {m n : Nat} (hmn : m < n) (hn : n ≤ maxWords) : memory m < memory n := by
  have hm : m ≤ maxWords := by omega
  rw [memory_eq hm, memory_eq hn]
  have hsq : m * m ≤ n * n := Nat.mul_le_mul (Nat.le_of_lt hmn) (Nat.le_of_lt hmn)
  omega

theorem le_of_memory_le {m n : Nat} (hm : m ≤ maxWords) (h : memory m ≤ memory n) : m ≤ n := by
  apply Nat.le_of_not_lt
  intro hnm
  have hlt := memory_lt hnm hm
  omega

theorem words_le {size : Nat} (h : size ≤ maxMemory) : words size ≤ maxWords := by
  simp only [words, maxWords, maxMemory] at *
  omega

theorem le_words (size : Nat) : size ≤ 32 * words size := by
  simp only [words]
  omega

theorem growth_none {paid size : Nat} (h : growth paid size = .ok none) :
    words size ≤ maxWords ∧ memory (words size) ≤ paid := by
  simp only [growth] at h
  split at h
  · cases h
  rename_i hmax
  split at h
  · rename_i hle
    exact ⟨words_le (Nat.le_of_not_lt hmax), hle⟩
  · cases h

theorem growth_some {paid size : Nat} {r : Growth} (h : growth paid size = .ok (some r)) :
    words size ≤ maxWords ∧ paid < memory (words size) ∧ r.words = words size := by
  simp only [growth] at h
  split at h
  · cases h
  rename_i hmax
  split at h
  · cases h
  · rename_i hgt
    cases h
    exact ⟨words_le (Nat.le_of_not_lt hmax), Nat.lt_of_not_le hgt, rfl⟩

theorem growth_error {paid size : Nat} {s : Status} (h : growth paid size = .error s) :
    s = .gasOverflow := by
  simp only [growth] at h
  split at h
  · cases h
    rfl
  split at h
  · cases h
  · cases h

end Price

namespace Gas

structure Covers (g : Gas) (size : Nat) : Prop where
  size : size = 32 * g.words
  paid : g.memoryPaid = Price.memory g.words
  bound : g.words ≤ Price.maxWords

theorem ofLimit_covers (limit : Nat) : (ofLimit limit).Covers 0 :=
  ⟨rfl, (Price.memory_eq (Nat.zero_le Price.maxWords)).symm, Nat.zero_le _⟩

theorem charge?_eq_some {g g' : Gas} {cost : Nat} (h : g.charge? cost = some g') :
    cost ≤ g.remaining ∧ g' = { g with remaining := g.remaining - cost } := by
  simp only [charge?] at h
  split at h
  · rename_i hc
    exact ⟨hc, (Option.some.inj h).symm⟩
  · cases h

theorem Covers.le_size {g : Gas} {size n : Nat} (h : g.Covers size)
    (hw : Price.words n ≤ Price.maxWords) (hpaid : Price.memory (Price.words n) ≤ g.memoryPaid) :
    n ≤ size := by
  rw [h.paid] at hpaid
  have hwords := Price.le_of_memory_le hw hpaid
  have hn := Price.le_words n
  have hsize := h.size
  omega

theorem Covers.words_le {g : Gas} {size n : Nat} (h : g.Covers size)
    (hpaid : g.memoryPaid < Price.memory (Price.words n)) : g.words ≤ Price.words n := by
  rw [h.paid] at hpaid
  apply Nat.le_of_not_lt
  intro hlt
  have hless := Price.memory_lt hlt h.bound
  omega

/-- Paying for memory only takes gas, and covers what is paid for. -/
theorem payMemory_ok {g g' : Gas} {offset len : Nat} {resized : Option Nat}
    (h : g.payMemory offset len = .ok (resized, g')) :
    g'.limit = g.limit ∧ g'.remaining ≤ g.remaining ∧
      ∀ size, g.Covers size → g'.Covers (resized.getD size) ∧ size ≤ resized.getD size ∧
        (len ≠ 0 → offset + len ≤ resized.getD size) := by
  simp only [payMemory] at h
  split at h
  · rename_i hlen
    cases h
    exact ⟨rfl, Nat.le_refl _, fun size hs => ⟨hs, Nat.le_refl _, fun hn => absurd hlen hn⟩⟩
  split at h
  · cases h
  split at h
  · cases h
  · rename_i hgrowth
    cases h
    obtain ⟨hw, hpaid⟩ := Price.growth_none hgrowth
    exact ⟨rfl, Nat.le_refl _, fun size hs => ⟨hs, Nat.le_refl _, fun _ => hs.le_size hw hpaid⟩⟩
  · rename_i growth hgrowth
    split at h
    · cases h
    rename_i paid hcharge
    cases h
    obtain ⟨-, rfl⟩ := charge?_eq_some hcharge
    obtain ⟨hw, hpaid, hwords⟩ := Price.growth_some hgrowth
    refine ⟨rfl, Nat.sub_le _ _, fun size hs => ?_⟩
    have hgrow := hs.words_le hpaid
    have hsize := hs.size
    have hcover := Price.le_words (offset + len)
    simp only [Option.getD_some, hwords]
    refine ⟨⟨Nat.mul_comm _ _, rfl, hw⟩, ?_, fun _ => ?_⟩
    · omega
    · omega

theorem payMemory_eq_error {g : Gas} {offset len : Nat} {s : Status}
    (h : g.payMemory offset len = .error s) : s = .gasOverflow ∨ s = .memoryOutOfGas := by
  simp only [payMemory] at h
  split at h
  · cases h
  split at h
  · cases h
    exact .inl rfl
  split at h
  · rename_i hgrowth
    cases h
    exact .inl (Price.growth_error hgrowth)
  · cases h
  · split at h
    · cases h
      exact .inr rfl
    · cases h

theorem payMemory_error {g : Gas} {offset len : Nat} {s : Status}
    (h : g.payMemory offset len = .error s) : s.Inner := by
  obtain rfl | rfl := payMemory_eq_error h
  · exact rfl
  · exact rfl

end Gas

end MeteredVM
