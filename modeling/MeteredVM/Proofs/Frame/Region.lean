import Mathlib.Data.List.GetD
import MeteredVM.Proofs.Frame.Reply

namespace MeteredVM

theorem Bytes.at0_eq (b : Bytes) (i : Nat) : b.at0 i = (b.data[i]?).getD 0 := by
  simp only [at0]
  split
  · rename_i h
    rw [Array.getElem?_eq_getElem h]
    rfl
  · rename_i h
    rw [Array.getElem?_eq_none (Nat.le_of_not_lt h)]
    rfl

theorem Bytes.at0_of_size_le {b : Bytes} {i : Nat} (h : b.size ≤ i) : b.at0 i = 0 :=
  dif_neg (Nat.not_lt.2 h)

theorem Bytes.at0_set! (b : Bytes) {off i : Nat} {x : UInt8} (h : i ≠ off) :
    Bytes.at0 (b.set! off x) i = b.at0 i := by
  have hdata : (b.set! off x).data = b.data.set! off x := rfl
  rw [at0_eq, at0_eq, hdata, Array.set!_eq_setIfInBounds,
    Array.getElem?_setIfInBounds_ne (Ne.symm h)]

namespace Memory

variable {m mem : Memory} {off dataOff len i : Nat} {b : Bytes}

theorem at0_resize {n : Nat} (h : m.size ≤ n) : (m.resize n).data.at0 i = m.data.at0 i := by
  simp only [size] at h
  simp only [resize]
  split
  · rename_i hn
    have hsame : n = m.data.size := by omega
    rw [hsame, ByteArray.extract_zero_size]
  · rename_i hn
    simp only [Bytes.at0_eq, ByteArray.data_append, Array.getElem?_append, Bytes.zeros]
    split
    · rfl
    · rename_i hi
      rw [Array.getElem?_eq_none (Nat.le_of_not_lt hi), Array.getElem?_replicate]
      split <;> rfl

theorem at0_overwrite (hin : off + b.size ≤ m.data.size) (i : Nat) :
    (m.data.overwrite off b).at0 i =
      if off ≤ i ∧ i < off + b.size then b.at0 (i - off) else m.data.at0 i := by
  have hdata : m.data.data.size = m.data.size := rfl
  have hb : b.data.size = b.size := rfl
  simp only [Bytes.overwrite, ByteArray.copySlice_eq_append, Bytes.at0_eq, ByteArray.data_append,
    ByteArray.data_extract, Array.getElem?_append, Array.getElem?_extract, Array.size_append,
    Array.size_extract, ByteArray.size_data]
  split
  · grind
  · grind

theorem at0_set (hm : m.set off b = .ok mem) (h : i < off ∨ off + b.size ≤ i) :
    mem.data.at0 i = m.data.at0 i := by
  simp only [set] at hm
  split at hm
  · cases hm
    rfl
  split at hm
  · rename_i hin
    cases hm
    rw [at0_overwrite hin, if_neg (by omega)]
  · cases hm

theorem at0_setByte {x : UInt8} (hm : m.setByte off x = .ok mem) (h : i ≠ off) :
    mem.data.at0 i = m.data.at0 i := by
  simp only [setByte] at hm
  split at hm
  · injection hm with hm
    rw [← hm]
    exact Bytes.at0_set! _ h
  · cases hm

theorem at0_setData (hm : m.setData off dataOff len b = .ok mem) (h : i < off ∨ off + len ≤ i) :
    mem.data.at0 i = m.data.at0 i := by
  simp only [setData] at hm
  split at hm
  · rename_i hin
    injection hm with hm
    rw [← hm]
    rw [← Bytes.size_window b dataOff len] at hin h
    rw [at0_overwrite hin, if_neg (by omega)]
  · cases hm

end Memory

namespace Stack

def operand (s : Stack) (i : Nat) : Word := s.items.getD i 0

theorem popN_ok {s t : Stack} {n : Nat} {args : Fin n → Word} (h : s.popN n = .ok (args, t)) :
    (∀ i, args i = s.operand i) ∧ ∀ i, t.operand i = s.operand (n + i) := by
  simp only [popN] at h
  split at h
  · rename_i hn
    cases h
    refine ⟨fun i => ?_, fun i => ?_⟩
    · exact (List.getD_eq_getElem _ _ (Nat.lt_of_lt_of_le i.isLt hn)).symm
    · simp [operand]
  · cases h

theorem popNTop_ok {s t : Stack} {n : Nat} {args : Fin n → Word} {top : Word}
    (h : s.popNTop n = .ok (args, top, t)) :
    (∀ i, args i = s.operand i) ∧ top = s.operand n := by
  simp only [popNTop] at h
  split at h
  · rename_i hn
    cases h
    refine ⟨fun i => ?_, ?_⟩
    · exact (List.getD_eq_getElem _ _ (Nat.lt_trans i.isLt hn)).symm
    · exact (List.getD_eq_getElem _ _ hn).symm
  · cases h

end Stack

structure Stretch where
  start : Nat
  length : Nat
  written : Bool

namespace Stretch

def stop (r : Stretch) : Nat := r.start + r.length

def Holds (r : Stretch) (i : Nat) : Prop := r.start ≤ i ∧ i < r.stop

theorem outside_of_not_holds {r : Stretch} {i : Nat} (h : ¬r.Holds i) :
    i < r.start ∨ r.stop ≤ i := by
  simp only [Holds] at h
  omega

def Within (r : Stretch) (f : Frame) : Prop := r.length ≠ 0 → r.stop ≤ f.memory.size

end Stretch

inductive Extent where
  | operand (i : Nat)
  | bytes (n : Nat)

def Extent.on (s : Stack) : Extent → Nat
  | operand i => (s.operand i).toNat
  | bytes n => n

/-- A range of memory that an opcode uses. An operand tells where it starts. -/
structure Region where
  offset : Nat
  extent : Extent
  written : Bool

def Region.on (s : Stack) (r : Region) : Stretch :=
  ⟨(s.operand r.offset).toNat, r.extent.on s, r.written⟩

namespace Opcode

def regions : Opcode → List Region
  | memLoad => [⟨0, .bytes 32, false⟩]
  | memStore => [⟨0, .bytes 32, true⟩]
  | memStoreByte => [⟨0, .bytes 1, true⟩]
  | keccak | log _ | ret | revert => [⟨0, .operand 1, false⟩]
  | callDataCopy | codeCopy | returnDataCopy => [⟨0, .operand 2, true⟩]
  | extCodeCopy => [⟨1, .operand 3, true⟩]
  | create | create2 => [⟨1, .operand 2, false⟩]
  | call | callCode => [⟨3, .operand 4, false⟩, ⟨5, .operand 6, true⟩]
  | delegateCall | staticCall => [⟨2, .operand 3, false⟩, ⟨4, .operand 5, true⟩]
  | _ => []

def stretches (op : Opcode) (s : Stack) : List Stretch := op.regions.map (·.on s)

end Opcode

theorem Gas.payMemory_some {g g' : Gas} {offset len size : Nat}
    (h : g.payMemory offset len = .ok (some size, g')) :
    len ≠ 0 ∧ size = 32 * Price.words (offset + len) := by
  simp only [payMemory] at h
  split at h
  · cases h
  rename_i hlen
  split at h
  · cases h
  split at h
  · cases h
  · cases h
  · rename_i growth hgrowth
    split at h
    · cases h
    obtain ⟨-, -, hwords⟩ := Price.growth_some hgrowth
    cases h
    exact ⟨hlen, by rw [hwords, Nat.mul_comm]⟩

namespace Frame

structure Extends (R : List Stretch) (f g : Frame) : Prop where
  covers : g.gas.Covers g.memory.size
  grows : f.memory.size ≤ g.memory.size
  /-- Memory grows to the end of a range, rounded up to a word. -/
  grown : g.memory.size = f.memory.size ∨
    ∃ r ∈ R, r.length ≠ 0 ∧ g.memory.size = 32 * Price.words r.stop
  kept : ∀ i, (∀ r ∈ R, r.written = true → ¬r.Holds i) →
    g.memory.data.at0 i = f.memory.data.at0 i

def Popped (n : Nat) (f g : Frame) : Prop := ∀ i, g.stack.operand i = f.stack.operand (n + i)

variable {R : List Stretch} {f g k : Frame}

theorem Extends.refl (hf : f.gas.Covers f.memory.size) : f.Extends R f :=
  ⟨hf, Nat.le_refl _, .inl rfl, fun _ _ => rfl⟩

theorem Extends.trans (hfg : f.Extends R g) (hgk : g.Extends R k) : f.Extends R k := by
  refine ⟨hgk.covers, Nat.le_trans hfg.grows hgk.grows, ?_, fun i hi => ?_⟩
  · obtain hsame | hgrown := hgk.grown
    · rw [hsame]
      exact hfg.grown
    · exact .inr hgrown
  · exact (hgk.kept i hi).trans (hfg.kept i hi)

theorem Extends.of_same (hf : f.gas.Covers f.memory.size) (hm : g.memory = f.memory)
    (hw : g.gas.words = f.gas.words) (hp : g.gas.memoryPaid = f.gas.memoryPaid) :
    f.Extends R g := by
  refine ⟨?_, Nat.le_of_eq (by rw [hm]), .inl (by rw [hm]), fun i _ => by rw [hm]⟩
  rw [hm]
  exact ⟨hw ▸ hf.size, hp ▸ hw ▸ hf.paid, hw ▸ hf.bound⟩

theorem Extends.of_written (hf : f.gas.Covers f.memory.size) (hg : g.gas = f.gas)
    (hsize : g.memory.size = f.memory.size)
    (hkept : ∀ i, (∀ r ∈ R, r.written = true → ¬r.Holds i) →
      g.memory.data.at0 i = f.memory.data.at0 i) : f.Extends R g := by
  refine ⟨?_, Nat.le_of_eq hsize.symm, .inl hsize, hkept⟩
  rw [hg, hsize]
  exact hf

end Frame

theorem Stretch.Within.of_extends {r : Stretch} {R : List Stretch} {f g : Frame}
    (hf : r.Within f) (hfg : f.Extends R g) : r.Within g :=
  fun hlen => Nat.le_trans (hf hlen) hfg.grows

/-- The step, of a frame or of a machine that has one, uses the memory in the ranges of `R`. If it
goes on, its result satisfies `Q`. -/
def Uses {S α : Type} (view : S → Frame) (R : List Stretch) (x : EStateM Ending S α) (s : S)
    (Q : α → Frame → Prop) : Prop :=
  (view s).gas.Covers (view s).memory.size →
    match x s with
    | .ok a t => (view s).Extends R (view t) ∧ Q a (view t)
    | .error (.status e) t => e ≠ .running ∧ (view s).Extends R (view t)
    | .error (.fault _) _ => True

namespace Uses

section Rules

variable {S α β : Type} {view : S → Frame} {R : List Stretch} {x : EStateM Ending S α} {s : S}
  {Q T : α → Frame → Prop}

theorem imp (hx : Uses view R x s Q) (hQ : ∀ a g, (view s).Extends R g → Q a g → T a g) :
    Uses view R x s T := by
  intro hs
  replace hx := hx hs
  cases he : x s with
  | ok a t =>
    simp only [he] at hx ⊢
    exact ⟨hx.1, hQ a _ hx.1 hx.2⟩
  | error e t =>
    rw [he] at hx
    cases e with
    | status e => exact hx
    | fault e => trivial

theorem bind {k : α → EStateM Ending S β} {T : β → Frame → Prop} (hx : Uses view R x s Q)
    (hk : ∀ a t, (view s).Extends R (view t) → Q a (view t) → Uses view R (k a) t T) :
    Uses view R (x >>= k) s T := by
  intro hs
  replace hx := hx hs
  simp only [Bind.bind, EStateM.bind]
  cases he : x s with
  | error e t =>
    rw [he] at hx
    cases e with
    | status e => exact hx
    | fault e => trivial
  | ok a t =>
    simp only [he] at hx ⊢
    have hka := hk a t hx.1 hx.2 hx.1.covers
    cases he' : k a t with
    | ok b u =>
      simp only [he'] at hka ⊢
      exact ⟨hx.1.trans hka.1, hka.2⟩
    | error e u =>
      cases e with
      | status e =>
        simp only [he'] at hka ⊢
        exact ⟨hka.1, hx.1.trans hka.2⟩
      | fault e => trivial

theorem pure {a : α} (ha : Q a (view s)) : Uses view R (pure a : EStateM Ending S α) s Q :=
  fun hs => ⟨.refl hs, ha⟩

theorem map {u : α → β} {T : β → Frame → Prop} (hx : Uses view R x s Q)
    (hu : ∀ a g, Q a g → T (u a) g) : Uses view R (u <$> x) s T := by
  rw [map_eq_pure_bind]
  exact hx.bind fun a t _ ha => .pure (hu a _ ha)

end Rules

section Local

open Local

variable {α : Type} {R : List Stretch} {f : Frame} {Q : α → Frame → Prop}

theorem get : Uses id R get f fun a g => a = f ∧ g = f :=
  fun hf => ⟨.refl hf, rfl, rfl⟩

theorem modify {u : Frame → Frame} (hm : (u f).memory = f.memory) (hg : (u f).gas = f.gas) :
    Uses id R (modify u) f fun _ g => g = u f :=
  fun hf => ⟨.of_same hf hm (congrArg Gas.words hg) (congrArg Gas.memoryPaid hg), rfl⟩

theorem halt {s : Status} (hs : s ≠ .running) : Uses id R (halt s : Local α) f Q :=
  fun hf => ⟨hs, .refl hf⟩

theorem checked {y : Except Fault α} : Uses id R (checked y) f fun _ g => g = f := by
  intro hf
  simp only [Local.checked]
  cases y with
  | ok a => exact ⟨.refl hf, rfl⟩
  | error e => trivial

theorem ensure {c : Bool} {s : Status} (hs : s ≠ .running) :
    Uses id R (ensure c s) f fun _ g => g = f := by
  simp only [Local.ensure]
  split
  · exact .pure rfl
  · exact .halt hs

theorem rules : Uses id R rules f fun _ g => g = f :=
  .bind .get fun _ _ _ hg => .pure hg.2

theorem since {fork : Hardfork} : Uses id R (since fork) f fun _ g => g = f := by
  apply Uses.bind .rules
  rintro _ _ - rfl
  exact .ensure Status.noConfusion

theorem having {e : Eip} : Uses id R (having e) f fun _ g => g = f := by
  apply Uses.bind .rules
  rintro _ _ - rfl
  exact .ensure Status.noConfusion

theorem mayWrite : Uses id R mayWrite f fun _ g => g = f := by
  apply Uses.bind .get
  rintro _ _ - ⟨rfl, rfl⟩
  exact .ensure Status.noConfusion

theorem charge {cost : Nat} : Uses id R (charge cost) f fun _ g => g.stack = f.stack := by
  intro hf
  simp only [Local.charge]
  cases h : f.gas.charge? cost with
  | none => exact ⟨Status.noConfusion, .refl hf⟩
  | some gas =>
    obtain ⟨-, rfl⟩ := Gas.charge?_eq_some h
    exact ⟨.of_same hf rfl rfl rfl, rfl⟩

theorem pay {price : Option Nat} : Uses id R (pay price) f fun _ g => g.stack = f.stack := by
  simp only [Local.pay]
  cases price with
  | none => exact .halt Status.noConfusion
  | some cost => exact .charge

theorem amount {w : Word} : Uses id R (amount w) f fun n g => n = w.toNat ∧ g = f := by
  simp only [Local.amount]
  split
  · rename_i n h
    simp only [Word.amount?] at h
    split at h
    · cases h
      exact .pure ⟨rfl, rfl⟩
    · cases h
  · exact .halt Status.noConfusion

theorem grow {offset len : Nat} {w : Bool} (hR : len ≠ 0 → ⟨offset, len, w⟩ ∈ R) :
    Uses id R (grow offset len) f fun _ g =>
      (len ≠ 0 → offset + len ≤ g.memory.size) ∧ g.stack = f.stack := by
  intro hf
  simp only [Local.grow]
  cases h : f.gas.payMemory offset len with
  | error s => exact ⟨Status.ne_running_of_endsFrame (Gas.payMemory_error h).endsFrame, .refl hf⟩
  | ok r =>
    obtain ⟨resized, gas⟩ := r
    obtain ⟨-, -, hcover⟩ := Gas.payMemory_ok h
    obtain ⟨hg, hle, hin⟩ := hcover _ hf
    cases resized with
    | none => exact ⟨⟨hg, Nat.le_refl _, .inl rfl, fun _ _ => rfl⟩, hin, rfl⟩
    | some size =>
      obtain ⟨hlen, hsize⟩ := Gas.payMemory_some h
      simp only [Option.getD_some] at hg hle hin
      have hresize : (f.memory.resize size).size = size := Memory.size_resize _ _
      have hgrown : (f.memory.resize size).size = 32 * Price.words (offset + len) := by
        rw [hresize, hsize]
      rw [← hresize] at hg hle hin
      refine ⟨⟨hg, hle, .inr ⟨_, hR hlen, hlen, hgrown⟩, fun i _ => ?_⟩, hin, rfl⟩
      rw [hresize] at hle
      exact Memory.at0_resize hle

theorem onStack {change : Stack → Except Status Stack}
    (h : ∀ s, change f.stack = .error s → s.Inner) :
    Uses id R (onStack change) f fun _ _ => True := by
  intro hf
  simp only [Local.onStack]
  cases hc : change f.stack with
  | ok stack => exact ⟨.of_same hf rfl rfl rfl, trivial⟩
  | error s => exact ⟨Status.ne_running_of_endsFrame (h s hc).endsFrame, .refl hf⟩

theorem push {w : Word} : Uses id R (push w) f fun _ _ => True :=
  .onStack fun _ h => Stack.push_error h

theorem setTop {w : Word} : Uses id R (setTop w) f fun _ _ => True :=
  .onStack fun _ h => Stack.set_error h

theorem pop {n : Nat} :
    Uses id R (pop n) f fun args g => (∀ i, args i = f.stack.operand i) ∧ f.Popped n g := by
  intro hf
  simp only [Local.pop]
  cases h : f.stack.popN n with
  | ok r => exact ⟨.of_same hf rfl rfl rfl, Stack.popN_ok h⟩
  | error e => exact ⟨Status.ne_running_of_endsFrame (Stack.popN_error h).endsFrame, .refl hf⟩

theorem popTop {n : Nat} :
    Uses id R (popTop n) f fun r _ =>
      (∀ i, r.1 i = f.stack.operand i) ∧ r.2 = f.stack.operand n := by
  intro hf
  simp only [Local.popTop]
  cases h : f.stack.popNTop n with
  | ok r => exact ⟨.of_same hf rfl rfl rfl, Stack.popNTop_ok h⟩
  | error e => exact ⟨Status.ne_running_of_endsFrame (Stack.popNTop_error h).endsFrame, .refl hf⟩

theorem pop1 : Uses id R pop1 f fun a g => a = f.stack.operand 0 ∧ f.Popped 1 g :=
  .bind .pop fun _ _ _ h => .pure ⟨h.1 0, h.2⟩

theorem pop2 :
    Uses id R pop2 f fun r g => r = (f.stack.operand 0, f.stack.operand 1) ∧ f.Popped 2 g :=
  .bind .pop fun _ _ _ h => .pure ⟨by rw [h.1 0, h.1 1]; rfl, h.2⟩

theorem pop3 :
    Uses id R pop3 f fun r g =>
      r = (f.stack.operand 0, f.stack.operand 1, f.stack.operand 2) ∧ f.Popped 3 g :=
  .bind .pop fun _ _ _ h => .pure ⟨by rw [h.1 0, h.1 1, h.1 2]; rfl, h.2⟩

theorem pop4 :
    Uses id R pop4 f fun r g =>
      r = (f.stack.operand 0, f.stack.operand 1, f.stack.operand 2, f.stack.operand 3) ∧
        f.Popped 4 g :=
  .bind .pop fun _ _ _ h => .pure ⟨by rw [h.1 0, h.1 1, h.1 2, h.1 3]; rfl, h.2⟩

theorem top1 : Uses id R top1 f fun a _ => a = f.stack.operand 0 :=
  .bind .popTop fun _ _ _ h => .pure h.2

theorem top2 : Uses id R top2 f fun r _ => r = (f.stack.operand 0, f.stack.operand 1) :=
  .bind .popTop fun _ _ _ h => .pure (by rw [h.1 0, h.2]; rfl)

theorem top3 : Uses id R top3 f fun _ _ => True :=
  .bind .popTop fun _ _ _ _ => .pure trivial

theorem slice {offset len : Nat} : Uses id R (slice offset len) f fun _ g => g = f := by
  apply Uses.bind .get
  rintro _ _ - ⟨rfl, rfl⟩
  exact .checked

theorem copyOut {offset : Word} {len : Nat} {w : Bool} (hlen : len ≠ 0)
    (hR : ⟨offset.toNat, len, w⟩ ∈ R) :
    Uses id R (copyOut offset len) f fun _ g => offset.toNat + len ≤ g.memory.size := by
  apply Uses.bind .amount
  rintro _ _ - ⟨rfl, rfl⟩
  apply Uses.bind (.grow fun _ => hR)
  rintro _ g - ⟨hg, -⟩
  apply Uses.slice.imp
  rintro _ _ - rfl
  exact hg hlen

theorem onMemory {change : Memory → Except Fault Memory}
    (hsize : ∀ mem, change f.memory = .ok mem → mem.size = f.memory.size)
    (hkept : ∀ mem, change f.memory = .ok mem → ∀ i,
      (∀ r ∈ R, r.written = true → ¬r.Holds i) → mem.data.at0 i = f.memory.data.at0 i) :
    Uses id R (onMemory change) f fun _ g => g.memory.size = f.memory.size := by
  intro hf
  simp only [Local.onMemory]
  cases h : change f.memory with
  | ok mem => exact ⟨.of_written hf rfl (hsize mem h) (hkept mem h), hsize mem h⟩
  | error e => trivial

theorem setBytes {off : Nat} {b : Bytes}
    (hR : b.size ≠ 0 → ∃ r ∈ R, r.written = true ∧ r.start ≤ off ∧ off + b.size ≤ r.stop) :
    Uses id R (Local.onMemory (·.set off b)) f fun _ g => g.memory.size = f.memory.size := by
  refine .onMemory (fun mem hm => Memory.size_set hm) fun mem hm i hi => ?_
  refine Memory.at0_set hm ?_
  by_cases hb : b.size = 0
  · omega
  · obtain ⟨r, hr, hw, hstart, hstop⟩ := hR hb
    have hout := Stretch.outside_of_not_holds (hi r hr hw)
    omega

theorem setByte {off : Nat} {x : UInt8} (hR : ⟨off, 1, true⟩ ∈ R) :
    Uses id R (Local.onMemory (·.setByte off x)) f fun _ g => g.memory.size = f.memory.size := by
  refine .onMemory (fun mem hm => Memory.size_setByte hm) fun mem hm i hi => ?_
  refine Memory.at0_setByte hm ?_
  have hout := Stretch.outside_of_not_holds (hi _ hR rfl)
  simp only [Stretch.stop] at hout
  omega

theorem setData {off dataOff len : Nat} {b : Bytes} (hR : ⟨off, len, true⟩ ∈ R) :
    Uses id R (Local.onMemory (·.setData off dataOff len b)) f
      fun _ g => g.memory.size = f.memory.size := by
  refine .onMemory (fun mem hm => Memory.size_setData hm) fun mem hm i hi => ?_
  exact Memory.at0_setData hm (Stretch.outside_of_not_holds (hi _ hR rfl))

end Local

section Exec

variable {σ α : Type} {R : List Stretch} {s : Machine σ} {Q : α → Frame → Prop}

theorem here {x : Local α} (hx : Uses id R x s.frame Q) :
    Uses Machine.frame R (Exec.here x) s Q := by
  intro hs
  replace hx := hx hs
  simp only [Exec.here]
  cases he : x s.frame with
  | ok a g =>
    rw [he] at hx
    exact hx
  | error e g =>
    rw [he] at hx
    cases e with
    | status e => exact hx
    | fault e => trivial

theorem ask {q : Query σ α} : Uses Machine.frame R (Exec.ask q) s fun _ g => g = s.frame := by
  intro hs
  simp only [Exec.ask]
  cases q s.world with
  | ok a w => exact ⟨.refl hs, rfl⟩
  | error e w => exact ⟨Status.noConfusion, .refl hs⟩

theorem nested {x : Nested σ α} :
    Uses Machine.frame R (Exec.nested x) s fun _ g => g = s.frame := by
  intro hs
  simp only [Exec.nested]
  cases x s.world with
  | ok p => exact ⟨.refl hs, rfl⟩
  | error e => trivial

theorem tell {change : σ → σ} : Uses Machine.frame R (Exec.tell change) s fun _ g => g = s.frame :=
  fun hs => ⟨.refl hs, rfl⟩

end Exec

-- The rules above say all there is to know; unfolding it further would run the step.
attribute [irreducible] Uses

end Uses

end MeteredVM
