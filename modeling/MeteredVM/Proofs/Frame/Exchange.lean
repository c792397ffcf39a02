import MeteredVM.Proofs.Frame.Operands
import MeteredVM.Proofs.Gas.Expansion

namespace MeteredVM

open Instruction

namespace Bytes

variable {b c : Bytes} {off len i : Nat}

theorem ext_at0 (hsize : b.size = c.size) (h : ∀ i, i < c.size → b.at0 i = c.at0 i) : b = c := by
  apply ByteArray.ext_getElem hsize
  intro i hb hc
  have hi := h i hc
  rwa [at0, at0, dif_pos hb, dif_pos hc] at hi

theorem at0_extract (hi : i < len) : Bytes.at0 (b.extract off (off + len)) i = b.at0 (off + i) := by
  simp only [at0_eq, ByteArray.data_extract, Array.getElem?_extract]
  grind

theorem at0_window (hi : i < len) : (b.window off len).at0 i = b.at0 (off + i) := by
  simp only [window, zeros, at0_eq, ByteArray.data_append, ByteArray.data_extract,
    Array.getElem?_append, Array.getElem?_extract, Array.size_extract, Array.getElem?_replicate]
  grind

theorem window_zero (b : Bytes) (off : Nat) : b.window off 0 = ByteArray.empty :=
  ext_at0 (b.size_window off 0) fun i hi => absurd hi (Nat.not_lt_zero i)

/-- A range that lies within bytes is read from shorter ones that zeros follow. -/
theorem extract_eq_window (hin : off + len ≤ c.size) (h : ∀ i, c.at0 i = b.at0 i) :
    c.extract off (off + len) = b.window off len := by
  apply ext_at0
  · rw [ByteArray.size_extract, size_window]
    omega
  · intro i hi
    rw [size_window] at hi
    rw [at0_extract hi, at0_window hi, h]

end Bytes

namespace Memory

variable {m mem : Memory} {off i : Nat} {b : Bytes}

theorem at0_set_of_mem (hm : m.set off b = .ok mem) (hlow : off ≤ i) (hhigh : i < off + b.size) :
    mem.data.at0 i = b.at0 (i - off) := by
  simp only [set] at hm
  split at hm
  · omega
  split at hm
  · rename_i hin
    cases hm
    rw [at0_overwrite hin, if_pos ⟨hlow, hhigh⟩]
  · cases hm

end Memory

abbrev Goes {S α : Type} (x : EStateM Ending S α) (s : S) (Q : α → S → Prop) : Prop :=
  Ends x s (fun _ _ => True) Q

def Frame.without (n : Nat) (f : Frame) : Frame := { f with stack := ⟨f.stack.items.drop n⟩ }

theorem Frame.operand_without (f : Frame) (n i : Nat) :
    (f.without n).stack.operand i = f.stack.operand (n + i) := by
  simp [Frame.without, Stack.operand]

def Frame.wordsFor (f : Frame) (inOffset inLength outOffset outLength : Nat) : Nat :=
  max (max f.gas.words (Price.needed inOffset inLength)) (Price.needed outOffset outLength)

structure Frame.Grown (n : Nat) (f g : Frame) : Prop where
  same : g = { f with gas := f.gas.reach n, memory := g.memory }
  paid : f.gas.increment n ≤ f.gas.remaining
  covers : g.gas.Covers g.memory.size
  bytes : ∀ i, g.memory.data.at0 i = f.memory.data.at0 i

namespace Frame.Grown

variable {m n : Nat} {f g k : Frame}

theorem gas (h : f.Grown n g) : g.gas = f.gas.reach n := by rw [h.same]

theorem size (h : f.Grown n g) : g.memory.size = 32 * n := by
  rw [h.covers.size, h.gas]
  rfl

theorem refl (hf : f.gas.Covers f.memory.size) : f.Grown f.gas.words f := by
  refine ⟨by rw [Gas.reach_words hf], ?_, hf, fun _ => rfl⟩
  rw [Gas.increment_of_le (Nat.le_refl _)]
  exact Nat.zero_le _

theorem trans (hfg : f.Grown m g) (hgk : g.Grown n k) (hm : f.gas.words ≤ m) (hn : m ≤ n) :
    f.Grown n k := by
  have hfirst := Price.quadratic_mono hm
  have hsecond := Price.quadratic_mono hn
  have hpaid := hfg.paid
  have hpaid' := hgk.paid
  have hgas := hfg.gas
  rw [hgas] at hpaid'
  simp only [Gas.increment, Gas.reach] at hpaid hpaid'
  have hreach : (f.gas.reach m).reach n = f.gas.reach n := by
    simp only [Gas.reach, Gas.increment, Gas.mk.injEq, and_true, true_and]
    omega
  refine ⟨?_, ?_, hgk.covers, fun i => (hgk.bytes i).trans (hfg.bytes i)⟩
  · rw [hgk.same, hgas, hreach, hfg.same]
  · simp only [Gas.increment]
    omega

end Frame.Grown

namespace Goes

open Local

variable {α : Type} {f : Frame} {n off len : Nat}

theorem amount {w : Word} : Goes (amount w) f fun k g => k = w.toNat ∧ g = f := by
  simp only [Local.amount, Word.amount?]
  by_cases hw : w.toNat < UInt64.size
  · rw [if_pos hw]
    exact Ends.pure ⟨rfl, rfl⟩
  · rw [if_neg hw]
    exact Ends.throw trivial

theorem checked {y : Except Fault α} : Goes (checked y) f fun a g => y = .ok a ∧ g = f := by
  simp only [Goes, Ends, Local.checked]
  cases y with
  | ok a => exact ⟨rfl, rfl⟩
  | error e => trivial

theorem charge {cost : Nat} : Goes (charge cost) f fun _ g => cost ≤ f.gas.remaining ∧
    g = { f with gas := { f.gas with remaining := f.gas.remaining - cost } } := by
  simp only [Goes, Ends, Local.charge]
  cases hgas : f.gas.charge? cost with
  | none => trivial
  | some gas =>
    obtain ⟨hcost, rfl⟩ := Gas.charge?_eq_some hgas
    exact ⟨hcost, rfl⟩

theorem rules : Goes rules f fun r g => r = f.rules ∧ g = f := ⟨rfl, rfl⟩

theorem ensure {c : Bool} {e : Status} : Goes (ensure c e) f fun _ g => c = true ∧ g = f := by
  simp only [Local.ensure]
  by_cases hc : c = true
  · rw [if_pos hc]
    exact Ends.pure ⟨hc, rfl⟩
  · rw [if_neg hc]
    exact Ends.throw trivial

theorem since {fork : Hardfork} : Goes (since fork) f fun _ g => g = f := by
  apply Ends.bind rules
  rintro _ _ ⟨rfl, rfl⟩
  exact ensure.imp fun _ _ h => h.2

theorem slice : Goes (slice off len) f fun b g =>
    off + len ≤ f.memory.data.size ∧ b = f.memory.data.extract off (off + len) ∧ g = f := by
  apply Ends.bind .get
  rintro _ _ ⟨rfl, rfl⟩
  refine checked.imp fun b g ⟨hb, hg⟩ => ?_
  simp only [Memory.slice] at hb
  split at hb
  · rename_i hin
    exact ⟨hin, (Except.ok.inj hb).symm, hg⟩
  · cases hb

theorem pop : Goes (pop n) f fun args g =>
    n ≤ f.stack.items.length ∧ (∀ i, args i = f.stack.operand i) ∧ g = f.without n := by
  simp only [Goes, Ends, Local.pop]
  cases hpop : f.stack.popN n with
  | error e => trivial
  | ok r =>
    refine ⟨?_, (Stack.popN_ok hpop).1, ?_⟩
    · simp only [Stack.popN] at hpop
      split at hpop
      · assumption
      · cases hpop
    · simp only [Stack.popN] at hpop
      split at hpop
      · cases hpop
        rfl
      · cases hpop

theorem pop2 : Goes pop2 f fun r g => 2 ≤ f.stack.items.length ∧
    r = (f.stack.operand 0, f.stack.operand 1) ∧ g = f.without 2 :=
  Ends.bind pop fun _ _ ⟨hlength, hargs, hg⟩ =>
    .pure ⟨hlength, by rw [hargs 0, hargs 1]; rfl, hg⟩

theorem pop3 : Goes pop3 f fun r g => 3 ≤ f.stack.items.length ∧
    r = (f.stack.operand 0, f.stack.operand 1, f.stack.operand 2) ∧ g = f.without 3 :=
  Ends.bind pop fun _ _ ⟨hlength, hargs, hg⟩ =>
    .pure ⟨hlength, by rw [hargs 0, hargs 1, hargs 2]; rfl, hg⟩

theorem pop4 : Goes pop4 f fun r g => 4 ≤ f.stack.items.length ∧
    r = (f.stack.operand 0, f.stack.operand 1, f.stack.operand 2, f.stack.operand 3) ∧
      g = f.without 4 :=
  Ends.bind pop fun _ _ ⟨hlength, hargs, hg⟩ =>
    .pure ⟨hlength, by rw [hargs 0, hargs 1, hargs 2, hargs 3]; rfl, hg⟩

theorem grow (hf : f.gas.Covers f.memory.size) : Goes (grow off len) f fun _ g =>
    f.Grown (max f.gas.words (Price.needed off len)) g ∧
      (len ≠ 0 → off + len ≤ g.memory.size) := by
  simp only [Goes, Ends, Local.grow]
  cases h : f.gas.payMemory off len with
  | error e => trivial
  | ok r =>
    obtain ⟨resized, gas⟩ := r
    obtain ⟨hnear, hresized, hpaid, rfl⟩ := Gas.payMemory_reach hf h
    obtain ⟨-, -, hcovers⟩ := Gas.payMemory_ok h
    obtain ⟨hcovers, hgrows, hin⟩ := hcovers _ hf
    cases resized with
    | none => exact ⟨⟨rfl, hpaid, hcovers, fun _ => rfl⟩, hin⟩
    | some size =>
      have hsize : (f.memory.resize size).size = size := Memory.size_resize _ _
      simp only [Option.getD_some] at hcovers hgrows hin
      refine ⟨⟨rfl, hpaid, ?_, fun i => Memory.at0_resize hgrows⟩, ?_⟩
      · rw [hsize]
        exact hcovers
      · rw [hsize]
        exact hin

end Goes

namespace Instruction

variable {f : Frame}

/-- A range that is set aside is as long as the operands say, and lies where they say unless it is empty. -/
structure Sets (offset len : Word) (span : Span) (g : Frame) : Prop where
  length : span.length = len.toNat
  start : len.toNat ≠ 0 → span.start = offset.toNat
  within : span.start + span.length ≤ g.memory.size

theorem Sets.window {offset len : Word} {span : Span} {g : Frame} (h : Sets offset len span g)
    (b : Bytes) : b.window span.start span.length = b.window offset.toNat len.toNat := by
  rw [h.length]
  by_cases hlen : len.toNat = 0
  · rw [hlen, b.window_zero, b.window_zero]
  · rw [h.start hlen]

theorem reserve_goes {offset len : Word} (hf : f.gas.Covers f.memory.size) :
    Goes (reserve offset len) f fun span g =>
      f.Grown (max f.gas.words (Price.needed offset.toNat len.toNat)) g ∧
        Sets offset len span g := by
  apply Ends.bind Goes.amount
  rintro _ _ ⟨rfl, rfl⟩
  by_cases hlen : len.toNat = 0
  · rw [if_pos hlen, Price.needed, if_pos hlen, Nat.max_zero]
    exact Ends.pure ⟨.refl hf, hlen.symm, fun hne => absurd hlen hne, Nat.zero_le _⟩
  · rw [if_neg hlen]
    apply Ends.bind Goes.amount
    rintro _ _ ⟨rfl, rfl⟩
    apply Ends.bind (Goes.grow hf)
    rintro _ g ⟨hg, hin⟩
    have hlength : Span.length ⟨offset.toNat, offset.toNat + len.toNat⟩ = len.toNat :=
      Nat.add_sub_cancel_left _ _
    refine Ends.pure ⟨hg, hlength, fun _ => rfl, ?_⟩
    rw [hlength]
    exact hin hlen

theorem exchange_goes (hf : f.gas.Covers f.memory.size) : Goes exchange f fun r g =>
    4 ≤ f.stack.items.length ∧
      (f.without 4).Grown (f.wordsFor (f.stack.operand 0).toNat (f.stack.operand 1).toNat
        (f.stack.operand 2).toNat (f.stack.operand 3).toNat) g ∧
      r.1 = f.memory.data.window (f.stack.operand 0).toNat (f.stack.operand 1).toNat ∧
      Sets (f.stack.operand 2) (f.stack.operand 3) r.2 g := by
  apply Ends.bind Goes.pop4
  rintro _ _ ⟨hlength, rfl, rfl⟩
  have hcovers : (f.without 4).gas.Covers (f.without 4).memory.size := hf
  apply Ends.bind (reserve_goes hcovers)
  rintro source g ⟨hg, hsource⟩
  apply Ends.bind Goes.slice
  rintro _ g ⟨hin, rfl, rfl⟩
  apply Ends.bind (reserve_goes hg.covers)
  rintro target k ⟨hk, htarget⟩
  have hwords : g.gas.words = max f.gas.words
      (Price.needed (f.stack.operand 0).toNat (f.stack.operand 1).toNat) := by
    rw [hg.gas]
    rfl
  rw [hwords] at hk
  refine Ends.pure ⟨hlength, hg.trans hk (Nat.le_max_left _ _) (Nat.le_max_left _ _), ?_, htarget⟩
  exact (Bytes.extract_eq_window hin hg.bytes).trans (hsource.window _)

end Instruction

end MeteredVM
