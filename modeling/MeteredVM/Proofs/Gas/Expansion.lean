import MeteredVM.Frame.Basic
import MeteredVM.Proofs.Gas.Memory

namespace MeteredVM

namespace Price

def quadratic (n : Nat) : Nat := 3 * n + n * n / 512

/-- The words up to the end of a range. An empty range needs none, wherever it starts. -/
def needed (offset len : Nat) : Nat := if len = 0 then 0 else words (offset + len)

def peak (ranges : List (Nat × Nat)) : Nat := ranges.foldr (fun r n => max n (needed r.1 r.2)) 0

variable {m n offset len : Nat}

theorem quadratic_mono (hmn : m ≤ n) : quadratic m ≤ quadratic n := by
  have hsq : m * m / 512 ≤ n * n / 512 := Nat.div_le_div_right (Nat.mul_le_mul hmn hmn)
  simp only [quadratic]
  omega

theorem memory_eq_quadratic (hn : n ≤ maxWords) : memory n = quadratic n := memory_eq hn

theorem memory_le_iff (hm : m ≤ maxWords) (hn : n ≤ maxWords) : memory m ≤ memory n ↔ m ≤ n := by
  constructor
  · exact le_of_memory_le hm
  · intro hmn
    rw [memory_eq_quadratic hm, memory_eq_quadratic hn]
    exact quadratic_mono hmn

theorem needed_le (h : len ≠ 0 → offset + len ≤ maxMemory) : needed offset len ≤ maxWords := by
  by_cases hlen : len = 0
  · rw [needed, if_pos hlen]
    exact Nat.zero_le _
  · rw [needed, if_neg hlen]
    exact words_le (h hlen)

end Price

theorem Local.grow_error {offset len : Nat} {f f' : Frame} {e : Ending}
    (h : Local.grow offset len f = .error e f') : f' = f := by
  simp only [Local.grow] at h
  split at h
  · cases h
  · cases h
  · cases h
    rfl

namespace Gas

variable {g g' : Gas} {offset len size : Nat}

/-- What memory of `n` words costs on top of what is paid for. -/
def increment (g : Gas) (n : Nat) : Nat := Price.quadratic n - Price.quadratic g.words

def reach (g : Gas) (n : Nat) : Gas :=
  { g with
    remaining := g.remaining - g.increment n
    words := n
    memoryPaid := Price.quadratic n }

theorem increment_of_le {n : Nat} (hn : n ≤ g.words) : g.increment n = 0 :=
  Nat.sub_eq_zero_of_le (Price.quadratic_mono hn)

theorem reach_words (hg : g.Covers size) : g.reach g.words = g := by
  have hpaid : Price.quadratic g.words = g.memoryPaid := by
    rw [hg.paid, Price.memory_eq_quadratic hg.bound]
  simp only [reach, increment_of_le (Nat.le_refl _), Nat.sub_zero, hpaid]

/-- How paying for a range ends, by the words that are paid for and those that are needed. -/
theorem payMemory_cases (offset len : Nat) (hg : g.Covers size) :
    (len ≠ 0 ∧ Price.maxMemory < offset + len) ∧
        g.payMemory offset len = .error .gasOverflow ∨
      (len ≠ 0 → offset + len ≤ Price.maxMemory) ∧
        (Price.needed offset len ≤ g.words ∧ g.payMemory offset len = .ok (none, g) ∨
          g.words < Price.needed offset len ∧ g.increment (Price.needed offset len) ≤ g.remaining ∧
            g.payMemory offset len =
              .ok (some (32 * Price.needed offset len), g.reach (Price.needed offset len)) ∨
          g.remaining < g.increment (Price.needed offset len) ∧
            g.payMemory offset len = .error .memoryOutOfGas) := by
  by_cases hlen : len = 0
  · refine .inr ⟨fun hne => absurd hlen hne, .inl ⟨?_, ?_⟩⟩
    · rw [Price.needed, if_pos hlen]
      exact Nat.zero_le _
    · rw [payMemory, if_pos hlen]
  by_cases hfar : Price.maxMemory < offset + len
  · refine .inl ⟨⟨hlen, hfar⟩, ?_⟩
    rw [payMemory, if_neg hlen]
    split
    · rfl
    · simp only [Price.growth, hfar, if_true]
  have hneed : Price.needed offset len = Price.words (offset + len) := if_neg hlen
  have hle : Price.needed offset len ≤ Price.maxWords :=
    Price.needed_le fun _ => Nat.le_of_not_lt hfar
  have hmax : ¬offset + len > Amount.max := by
    simp only [Price.maxMemory] at hfar
    have hmost : Amount.max = 18446744073709551615 := rfl
    omega
  refine .inr ⟨fun _ => Nat.le_of_not_lt hfar, ?_⟩
  rw [payMemory, if_neg hlen, if_neg hmax, Price.growth, if_neg hfar, ← hneed, hg.paid]
  by_cases hpaid : Price.needed offset len ≤ g.words
  · rw [if_pos ((Price.memory_le_iff hle hg.bound).mpr hpaid)]
    exact .inl ⟨hpaid, rfl⟩
  rw [if_neg fun h => hpaid ((Price.memory_le_iff hle hg.bound).mp h),
    Price.memory_eq_quadratic hle, Price.memory_eq_quadratic hg.bound]
  by_cases hgas : g.increment (Price.needed offset len) ≤ g.remaining
  · refine .inr (.inl ⟨Nat.lt_of_not_le hpaid, hgas, ?_⟩)
    simp only [charge?, reach, ← increment.eq_1, if_pos hgas, Nat.mul_comm,
      Price.memory_eq_quadratic hle]
  · refine .inr (.inr ⟨Nat.lt_of_not_le hgas, ?_⟩)
    simp only [charge?, ← increment.eq_1]
    rw [if_neg hgas]

theorem payMemory_reach {resized : Option Nat} (hg : g.Covers size)
    (h : g.payMemory offset len = .ok (resized, g')) :
    (len ≠ 0 → offset + len ≤ Price.maxMemory) ∧
      resized = (if Price.needed offset len ≤ g.words then none
        else some (32 * Price.needed offset len)) ∧
      g.increment (max g.words (Price.needed offset len)) ≤ g.remaining ∧
      g' = g.reach (max g.words (Price.needed offset len)) := by
  obtain ⟨-, he⟩ | ⟨hnear, ⟨hpaid, he⟩ | ⟨hpaid, hgas, he⟩ | ⟨-, he⟩⟩ :=
    payMemory_cases offset len hg
  · rw [he] at h
    cases h
  · rw [he] at h
    cases h
    rw [if_pos hpaid, Nat.max_eq_left hpaid, reach_words hg, increment_of_le (Nat.le_refl _)]
    exact ⟨hnear, rfl, Nat.zero_le _, rfl⟩
  · rw [he] at h
    cases h
    rw [if_neg (Nat.not_le_of_lt hpaid), Nat.max_eq_right (Nat.le_of_lt hpaid)]
    exact ⟨hnear, rfl, hgas, rfl⟩
  · rw [he] at h
    cases h

theorem payMemory_grows_iff (hg : g.Covers size) {n : Nat} :
    g.payMemory offset len = .ok (some n, g') ↔
      (len ≠ 0 → offset + len ≤ Price.maxMemory) ∧ g.words < Price.needed offset len ∧
        g.increment (Price.needed offset len) ≤ g.remaining ∧
        n = 32 * Price.needed offset len ∧ g' = g.reach (Price.needed offset len) := by
  have hcases := payMemory_cases offset len hg
  grind

theorem payMemory_stays_iff (hg : g.Covers size) :
    g.payMemory offset len = .ok (none, g') ↔
      (len ≠ 0 → offset + len ≤ Price.maxMemory) ∧ Price.needed offset len ≤ g.words ∧ g' = g := by
  have hcases := payMemory_cases offset len hg
  grind [increment_of_le]

theorem payMemory_gasOverflow_iff (hg : g.Covers size) :
    g.payMemory offset len = .error .gasOverflow ↔
      len ≠ 0 ∧ Price.maxMemory < offset + len := by
  have hcases := payMemory_cases offset len hg
  grind

theorem payMemory_memoryOutOfGas_iff (hg : g.Covers size) :
    g.payMemory offset len = .error .memoryOutOfGas ↔
      (len ≠ 0 → offset + len ≤ Price.maxMemory) ∧
        g.remaining < g.increment (Price.needed offset len) := by
  have hcases := payMemory_cases offset len hg
  grind [increment_of_le]

/-- What has happened to a meter since it was made: the ranges of memory it has paid for, the latest
first, and what they have taken of its gas. -/
inductive History (limit : Nat) : Gas → List (Nat × Nat) → Nat → Prop
  | start : History limit (ofLimit limit) [] 0
  | charge {g g' : Gas} {ranges : List (Nat × Nat)} {charged cost : Nat}
      (past : History limit g ranges charged) (paid : g.charge? cost = some g') :
      History limit g' ranges charged
  | giveBack {g g' : Gas} {ranges : List (Nat × Nat)} {charged returned : Nat}
      (past : History limit g ranges charged) (given : g.giveBack returned = .ok g') :
      History limit g' ranges charged
  | exhaust {g : Gas} {ranges : List (Nat × Nat)} {charged : Nat}
      (past : History limit g ranges charged) : History limit g.exhaust ranges charged
  | payMemory {g g' : Gas} {ranges : List (Nat × Nat)} {charged offset len : Nat}
      {resized : Option Nat} (past : History limit g ranges charged)
      (paid : g.payMemory offset len = .ok (resized, g')) :
      History limit g' ((offset, len) :: ranges) (charged + (g.remaining - g'.remaining))

namespace History

variable {limit charged : Nat} {ranges : List (Nat × Nat)}

theorem closed (h : History limit g ranges charged) :
    g.Covers (32 * Price.peak ranges) ∧ g.words = Price.peak ranges ∧
      charged = Price.quadratic (Price.peak ranges) := by
  induction h with
  | start => exact ⟨ofLimit_covers limit, rfl, rfl⟩
  | charge past paid ih =>
    obtain ⟨hg, hwords, hcharged⟩ := ih
    obtain ⟨-, rfl⟩ := charge?_eq_some paid
    exact ⟨⟨hg.size, hg.paid, hg.bound⟩, hwords, hcharged⟩
  | @giveBack g _ _ _ returned past given ih =>
    obtain ⟨hg, hwords, hcharged⟩ := ih
    obtain ⟨r, -, rfl⟩ := Except.map_eq_ok given
    exact ⟨⟨hg.size, hg.paid, hg.bound⟩, hwords, hcharged⟩
  | exhaust past ih =>
    obtain ⟨hg, hwords, hcharged⟩ := ih
    exact ⟨⟨hg.size, hg.paid, hg.bound⟩, hwords, hcharged⟩
  | @payMemory g _ ranges _ offset len resized past paid ih =>
    obtain ⟨hg, hwords, hcharged⟩ := ih
    obtain ⟨hnear, -, hgas, rfl⟩ := payMemory_reach hg paid
    have hpeak : max g.words (Price.needed offset len) = Price.peak ((offset, len) :: ranges) := by
      rw [hwords]
      rfl
    have hbound : Price.peak ((offset, len) :: ranges) ≤ Price.maxWords :=
      hpeak ▸ Nat.max_le.mpr ⟨hg.bound, Price.needed_le hnear⟩
    have hmono : Price.quadratic g.words ≤ Price.quadratic (Price.peak ((offset, len) :: ranges)) :=
      Price.quadratic_mono (hpeak ▸ Nat.le_max_left _ _)
    rw [hpeak, increment] at hgas
    rw [hpeak]
    refine ⟨⟨rfl, (Price.memory_eq_quadratic hbound).symm, hbound⟩, rfl, ?_⟩
    simp only [reach, increment]
    rw [hcharged, ← hwords]
    omega

/-- What memory has cost is the price of the furthest word that a range has reached, whatever way
led there. The next range costs the difference to its own last word, and is refused only for lack of that
or past the largest memory. A range that is refused leaves the frame and its meter as they were. -/
theorem memory_price (h : History limit g ranges charged) :
    g.words = Price.peak ranges ∧ g.words ≤ 0xFFFFFFFF ∧
      charged = 3 * g.words + g.words * g.words / 512 ∧ g.memoryPaid = charged ∧
      (∀ n, n ≤ 0xFFFFFFFF → n * n ≤ Amount.max ∧ 3 * n + n * n / 512 ≤ Amount.max ∧
        32 * n ≤ Amount.max ∧ Price.memory n = Price.quadratic n) ∧
      ∀ offset len,
        (∀ size g', g.payMemory offset len = .ok (some size, g') ↔
          (len ≠ 0 → offset + len ≤ 0x1FFFFFFFE0) ∧ g.words < Price.needed offset len ∧
            Price.quadratic (Price.needed offset len) - charged ≤ g.remaining ∧
            size = 32 * Price.needed offset len ∧ g' = g.reach (Price.needed offset len)) ∧
        (∀ g', g.payMemory offset len = .ok (none, g') ↔
          (len ≠ 0 → offset + len ≤ 0x1FFFFFFFE0) ∧ Price.needed offset len ≤ g.words ∧ g' = g) ∧
        (g.payMemory offset len = .error .gasOverflow ↔
          len ≠ 0 ∧ 0x1FFFFFFFE0 < offset + len) ∧
        (g.payMemory offset len = .error .memoryOutOfGas ↔
          (len ≠ 0 → offset + len ≤ 0x1FFFFFFFE0) ∧
            g.remaining < Price.quadratic (Price.needed offset len) - charged) ∧
        (∀ s, g.payMemory offset len = .error s → s = .gasOverflow ∨ s = .memoryOutOfGas) ∧
        ∀ f f' e, Local.grow offset len f = .error e f' → f' = f := by
  obtain ⟨hg, hwords, hcharged⟩ := h.closed
  rw [← hwords] at hcharged
  refine ⟨hwords, hg.bound, hcharged, ?_, fun n hn => ?_, fun offset len => ?_⟩
  · rw [hg.paid, Price.memory_eq_quadratic hg.bound, hcharged]
  · have hsq : n * n ≤ 0xFFFFFFFF * 0xFFFFFFFF := Nat.mul_le_mul hn hn
    have hmax : Amount.max = 18446744073709551615 := rfl
    refine ⟨?_, ?_, ?_, Price.memory_eq_quadratic hn⟩ <;> omega
  rw [hcharged]
  exact ⟨fun size g' => payMemory_grows_iff hg, fun g' => payMemory_stays_iff hg,
    payMemory_gasOverflow_iff hg, payMemory_memoryOutOfGas_iff hg, fun s hs => payMemory_eq_error hs,
    fun f f' e hf => Local.grow_error hf⟩

/-- Two words that are asked for twice. A third one has its price, and two ranges are refused: one lies past
the largest memory, the other one is not paid for. -/
theorem memory_price_two_words :
    History 100 ⟨100, 94, 2, 6⟩ [(1, 40), (0, 33)] 6 ∧ 6 = 3 * 2 + 2 * 2 / 512 ∧
      Gas.payMemory ⟨100, 94, 2, 6⟩ 1 40 = .ok (none, ⟨100, 94, 2, 6⟩) ∧
      Gas.payMemory ⟨100, 94, 2, 6⟩ 64 1 = .ok (some 96, ⟨100, 91, 3, 9⟩) ∧
      Gas.payMemory ⟨100, 94, 2, 6⟩ 0x1FFFFFFFE0 1 = .error .gasOverflow ∧
      Gas.payMemory ⟨100, 94, 2, 6⟩ 0 1280 = .error .memoryOutOfGas := by
  have first : History 100 ⟨100, 94, 2, 6⟩ [(0, 33)] 6 := .payMemory .start rfl
  have again : History 100 ⟨100, 94, 2, 6⟩ [(1, 40), (0, 33)] 6 := .payMemory first rfl
  obtain ⟨-, -, hprice, -, -, hranges⟩ := again.memory_price
  obtain ⟨-, stays, -⟩ := hranges 1 40
  obtain ⟨grows, -⟩ := hranges 64 1
  obtain ⟨-, -, overflows, -⟩ := hranges 0x1FFFFFFFE0 1
  obtain ⟨-, -, -, outOfGas, -⟩ := hranges 0 1280
  exact ⟨again, hprice, (stays _).mpr (by decide), (grows _ _).mpr (by decide),
    overflows.mpr (by decide), outOfGas.mpr (by decide)⟩

end History

end Gas

end MeteredVM
