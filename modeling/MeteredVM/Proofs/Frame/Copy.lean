import MeteredVM.Proofs.Frame.Callee
import MeteredVM.Proofs.Frame.Compute

namespace MeteredVM

open Exec Instruction Finset

variable {σ : Type}

namespace Bytes

variable {b : Bytes} {len : Nat}

/-- A position that is clamped is past the end, as the one before was. -/
theorem clamp_eq_or (offset : Word) (hb : b.size < Amount.max) :
    offset.clamp = offset.toNat ∨ b.size < offset.clamp ∧ b.size < offset.toNat := by
  simp only [Word.clamp, Amount.max] at hb ⊢
  omega

theorem at0_clamp (offset : Word) (hb : b.size < Amount.max) (i : Nat) :
    b.at0 (offset.clamp + i) = b.at0 (offset.toNat + i) := by
  obtain hsame | ⟨hclamp, hpast⟩ := clamp_eq_or offset hb
  · rw [hsame]
  · rw [at0_of_size_le (by omega), at0_of_size_le (by omega)]

theorem window_clamp (offset : Word) (len : Nat) (hb : b.size < Amount.max) :
    b.window offset.clamp len = b.window offset.toNat len := by
  apply ext_at0
  · rw [size_window, size_window]
  · intro i hi
    rw [size_window] at hi
    rw [at0_window hi, at0_window hi, at0_clamp offset hb]

theorem clamp_add_le_iff (offset : Word) (len : Nat) (hb : b.size < Amount.max) :
    offset.clamp + len ≤ b.size ↔ offset.toNat + len ≤ b.size := by
  obtain hsame | ⟨hclamp, hpast⟩ := clamp_eq_or offset hb
  · rw [hsame]
  · omega

theorem toNat_window (b : Bytes) (off n : Nat) : (b.window off n).toNat = b.valueAt off n := by
  have hsize := b.size_window off n
  have hwhole : (b.window off n).extract 0 (0 + n) = b.window off n := by
    rw [Nat.zero_add]
    nth_rewrite 2 [← hsize]
    exact ByteArray.extract_zero_size
  rw [← hwhole, toNat_extract (by omega), valueAt, valueAt]
  apply sum_congr rfl
  intro k hk
  rw [Nat.zero_add, at0_window (mem_range.mp hk)]

end Bytes

/-- Where a copy goes to in memory, where in the data it starts, and how long it is. -/
structure CopyTerms where
  target : Nat
  offset : Word
  length : Nat

namespace Opcode

def copyTerms? (s : Stack) : Opcode → Option CopyTerms
  | callDataCopy | codeCopy | returnDataCopy =>
    some ⟨(s.operand 0).toNat, s.operand 1, (s.operand 2).toNat⟩
  | extCodeCopy => some ⟨(s.operand 1).toNat, s.operand 2, (s.operand 3).toNat⟩
  | _ => none

def source? (h : Host σ) (s : Machine σ) : Opcode → Option Bytes
  | callDataCopy => some s.frame.invocation.input
  | codeCopy => some s.frame.invocation.code.bytes
  | returnDataCopy => some s.frame.returnData
  | extCodeCopy =>
    match h.code (s.frame.stack.operand 0).toAddress s.world with
    | .ok found _ => some found.value
    | .error _ _ => none
  | _ => none

variable {h : Host σ} {s : Machine σ} {stack : Stack} {op : Opcode} {c : CopyTerms}

theorem stretches_of_copyTerms (hop : op.copyTerms? stack = some c) :
    op.stretches stack = [⟨c.target, c.length, true⟩] := by
  cases op <;> first | (cases hop; rfl) | cases hop

theorem request?_of_copyTerms (hop : op.copyTerms? stack = some c) : op.request? h = none := by
  cases op <;> first | rfl | cases hop

end Opcode

/-- Memory has taken in the data from an offset on, with zeros past its end, and has changed nowhere
else. -/
structure Frame.Copied (c : CopyTerms) (data : Bytes) (f g : Frame) : Prop where
  within : c.length ≠ 0 → c.target + c.length ≤ g.memory.size
  bytes : ∀ i < c.length, g.memory.data.at0 (c.target + i) = data.at0 (c.offset.toNat + i)
  kept : ∀ i, i < c.target ∨ c.target + c.length ≤ i →
    g.memory.data.at0 i = f.memory.data.at0 i
  grows : f.memory.size ≤ g.memory.size

theorem Frame.Copied.extract {c : CopyTerms} {data : Bytes} {f g : Frame} (h : f.Copied c data g)
    (hin : c.offset.toNat + c.length ≤ data.size) :
    g.memory.data.extract c.target (c.target + c.length) =
      data.extract c.offset.toNat (c.offset.toNat + c.length) := by
  have hwithin := h.within
  have hsize : g.memory.size = g.memory.data.size := rfl
  apply Bytes.ext_at0
  · rw [ByteArray.size_extract, ByteArray.size_extract]
    omega
  · intro i hi
    rw [ByteArray.size_extract] at hi
    rw [Bytes.at0_extract (by omega), Bytes.at0_extract (by omega), h.bytes i (by omega)]

theorem Memory.at0_setData_of_lt {m mem : Memory} {off dataOff len i : Nat} {b : Bytes}
    (hm : m.setData off dataOff len b = .ok mem) (hi : i < len) :
    mem.data.at0 (off + i) = b.at0 (dataOff + i) := by
  simp only [setData] at hm
  split at hm
  · rename_i hin
    injection hm with hm
    rw [← hm]
    rw [← Bytes.size_window b dataOff len] at hin
    have hwithin : off ≤ off + i ∧ off + i < off + (b.window dataOff len).size := by
      rw [Bytes.size_window]
      omega
    rw [at0_overwrite hin, if_pos hwithin, Nat.add_sub_cancel_left, Bytes.at0_window hi]
  · cases hm

theorem Memory.at0_set_extract_of_lt {m mem : Memory} {off start len i : Nat} {b : Bytes}
    (hm : m.set off (b.extract start (start + len)) = .ok mem) (hin : start + len ≤ b.size)
    (hi : i < len) : mem.data.at0 (off + i) = b.at0 (start + i) := by
  have hsize : (b.extract start (start + len)).size = len := by
    rw [ByteArray.size_extract]
    omega
  rw [at0_set_of_mem hm (by omega) (by omega), Nat.add_sub_cancel_left, Bytes.at0_extract hi]

namespace Goes

variable {f : Frame}

theorem pay {price : Option Nat} :
    Goes (Local.pay price) f fun _ g => g.returnData = f.returnData := by
  cases price with
  | none => exact Ends.throw trivial
  | some cost =>
    apply charge.imp
    rintro _ _ ⟨-, rfl⟩
    rfl

theorem anyway {α : Type} {x : Local α} : Goes x f fun _ _ => True :=
  Ends.iff.mpr ⟨fun _ _ _ => trivial, fun _ _ _ => trivial⟩

end Goes

namespace Instruction

variable {f : Frame}

theorem copyData_goes {price : Nat → Option Nat} {target offset len : Word} {data : Bytes} :
    Goes (copyData price target offset len data) f fun _ g => ∀ i < len.toNat,
      g.memory.data.at0 (target.toNat + i) = data.at0 (offset.clamp + i) := by
  apply Ends.bind Goes.amount
  rintro _ _ ⟨rfl, rfl⟩
  apply Ends.bind Goes.pay
  intro _ _ _
  by_cases hlen : len.toNat = 0
  · rw [if_neg (not_not.mpr hlen), hlen]
    exact Ends.pure nofun
  · rw [if_pos hlen]
    apply Ends.bind Goes.amount
    rintro _ _ ⟨rfl, rfl⟩
    apply Ends.bind Goes.anyway
    intro _ _ _
    apply Goes.onMemory.imp
    rintro _ _ ⟨mem, hmem, rfl⟩ i hi
    exact Memory.at0_setData_of_lt hmem hi

theorem copyLow_goes {data : Frame → Bytes} : Goes (copyLow data) f fun _ g =>
    ∀ i < (f.stack.operand 2).toNat, g.memory.data.at0 ((f.stack.operand 0).toNat + i) =
      (data (f.without 3)).at0 ((f.stack.operand 1).clamp + i) := by
  apply Ends.bind Goes.pop3
  rintro _ _ ⟨-, rfl, rfl⟩
  apply Ends.bind .get
  rintro _ _ ⟨rfl, rfl⟩
  exact copyData_goes

theorem extCodeCopy_goes {h : Host σ} {s : Machine σ} :
    Goes (Instruction.extCodeCopy h) s fun _ t => ∃ found w,
      h.code (s.frame.stack.operand 0).toAddress s.world = .ok found w ∧
        ∀ i < (s.frame.stack.operand 3).toNat,
          t.frame.memory.data.at0 ((s.frame.stack.operand 1).toNat + i) =
            found.value.at0 ((s.frame.stack.operand 2).clamp + i) := by
  apply Ends.bind (Goes.here Goes.pop4)
  rintro _ s₁ ⟨⟨-, rfl, -⟩, hworld⟩
  apply Ends.bind Goes.ask
  rintro found s₂ ⟨hfound, -⟩
  rw [hworld] at hfound
  apply Ends.bind (Goes.here Goes.rules)
  intro _ s₃ _
  apply (Goes.here copyData_goes).imp
  rintro _ t ⟨hbytes, -⟩
  exact ⟨found, _, hfound, hbytes⟩

theorem returnDataCopy_goes : Goes returnDataCopy f fun _ g =>
    ∀ i < (f.stack.operand 2).toNat, g.memory.data.at0 ((f.stack.operand 0).toNat + i) =
      f.returnData.at0 ((f.stack.operand 1).clamp + i) := by
  apply Ends.bind Goes.since
  rintro _ f rfl
  apply Ends.bind Goes.pop3
  rintro _ _ ⟨-, rfl, rfl⟩
  apply Ends.bind Goes.amount
  rintro _ _ ⟨rfl, rfl⟩
  apply Ends.bind Goes.pay
  intro _ g hsame
  apply Ends.bind .get
  rintro _ g ⟨rfl, rfl⟩
  apply Ends.bind Goes.ensure
  rintro _ g ⟨hinside, rfl⟩
  by_cases hlen : (f.stack.operand 2).toNat = 0
  · rw [if_neg (not_not.mpr hlen), hlen]
    exact Ends.pure nofun
  · rw [if_pos hlen]
    apply Ends.bind Goes.amount
    rintro _ _ ⟨rfl, rfl⟩
    apply Ends.bind Goes.anyway
    intro _ k _
    apply Goes.onMemory.imp
    rintro _ _ ⟨mem, hmem, rfl⟩ i hi
    rw [Memory.at0_set_extract_of_lt hmem (of_decide_eq_true hinside) hi, hsame]
    rfl

theorem pop3_ok {x y z : Word} {rest : List Word} (hstack : f.stack.items = x :: y :: z :: rest) :
    Local.pop3 f = .ok (x, y, z) { f with stack := ⟨rest⟩ } := by
  obtain ⟨invocation, pc, status, gas, memory, ⟨items⟩, returnData, output⟩ := f
  cases hstack
  rfl

theorem amount_ok {w : Word} (hw : w.toNat < UInt64.size) : Local.amount w f = .ok w.toNat f := by
  simp only [Local.amount, Word.amount?, if_pos hw]
  rfl

theorem ensure_error {c : Bool} {e : Status} (hc : c = false) :
    Local.ensure c e f = .error (.status e) f := by
  rw [hc]
  rfl

theorem amount_ends {target : Word} :
    Ends (Local.amount target) f (fun e _ => e ≠ .status .outOfOffset) fun _ g => g = f := by
  simp only [Local.amount]
  cases target.amount? with
  | some n => exact Ends.pure rfl
  | none => exact Ends.throw (by decide)

theorem grow_ends {offset len : Nat} :
    Ends (Local.grow offset len) f (fun e _ => e ≠ .status .outOfOffset)
      fun _ g => g.status = f.status := by
  simp only [Ends, Local.grow]
  cases hpaid : f.gas.payMemory offset len with
  | error e =>
    rintro ⟨⟩
    obtain h | h := Gas.payMemory_eq_error hpaid
    · cases h
    · cases h
  | ok r =>
    obtain ⟨resized, gas⟩ := r
    cases resized <;> rfl

theorem place_ends {target : Word} {len : Nat} {change : Nat → Memory → Except Fault Memory} :
    Ends (do
      let offset ← Local.amount target
      Local.grow offset len
      Local.onMemory (change offset)) f (fun e _ => e ≠ .status .outOfOffset)
        fun _ g => g.status = f.status := by
  apply Ends.bind amount_ends
  rintro offset _ rfl
  apply Ends.bind grow_ends
  intro _ g hstatus
  simp only [Ends, Local.onMemory]
  cases change offset g.memory with
  | ok mem => exact hstatus
  | error e =>
    intro he
    cases he

/-- Once the output to be copied has been paid for, it depends on the length of the output alone whether the
step is refused for reading past its end. -/
theorem returnDataCopy_ends {target offset len : Word} {rest : List Word} {cost : Nat}
    (hfork : f.rules.since .byzantium = true)
    (hstack : f.stack.items = target :: offset :: len :: rest) (hlen : len.toNat < UInt64.size)
    (hprice : Price.copyLow len.toNat = some cost) (hcost : cost ≤ f.gas.remaining) :
    Ends returnDataCopy f
      (fun e _ => e = .status .outOfOffset ↔ f.returnData.size < offset.clamp + len.toNat)
      fun _ g => offset.clamp + len.toNat ≤ f.returnData.size ∧ g.status = f.status := by
  apply Ends.bind_of_ok (since_ok hfork)
  apply Ends.bind_of_ok (pop3_ok hstack)
  apply Ends.bind_of_ok (amount_ok hlen)
  apply Ends.bind_of_ok (pay_ok (f := { f with stack := ⟨rest⟩ }) hprice hcost)
  apply Ends.bind Ends.get
  rintro _ _ ⟨rfl, rfl⟩
  by_cases hinside : offset.clamp + len.toNat ≤ f.returnData.size
  · apply Ends.bind_of_ok (ensure_ok (decide_eq_true hinside))
    by_cases hlen : len.toNat = 0
    · rw [if_neg (not_not.mpr hlen)]
      exact Ends.pure ⟨hinside, rfl⟩
    · rw [if_pos hlen]
      refine (place_ends.refused fun e _ he => ?_).imp fun _ g hg => ⟨hinside, hg⟩
      exact iff_of_false he (Nat.not_lt.mpr hinside)
  · exact Ends.bind_of_error (ensure_error (decide_eq_false hinside))
      (iff_of_true rfl (Nat.not_le.mp hinside))

end Instruction

namespace Opcode

variable {h : Host σ} {s t : Machine σ} {op : Opcode} {c : CopyTerms}

theorem run_copies (hop : op.copyTerms? s.frame.stack = some c) (ht : op.run h s = .ok () t) :
    ∃ data, op.source? h s = some data ∧ ∀ i < c.length,
      t.frame.memory.data.at0 (c.target + i) = data.at0 (c.offset.clamp + i) := by
  cases op with
  | callDataCopy | codeCopy =>
    cases hop
    exact ⟨_, rfl, copyLow_goes.ok (Exec.here_eq_ok ht).1⟩
  | returnDataCopy =>
    cases hop
    exact ⟨_, rfl, returnDataCopy_goes.ok (Exec.here_eq_ok ht).1⟩
  | extCodeCopy =>
    cases hop
    obtain ⟨found, w, hfound, hbytes⟩ := extCodeCopy_goes.ok ht
    refine ⟨found.value, ?_, hbytes⟩
    simp only [source?, hfound]
  | _ => cases hop

end Opcode

namespace Machine

variable {h : Host σ} {s t : Machine σ} {op : Opcode} {c : CopyTerms}

/-- A step that gives no refund and opens no frame has an answer. -/
theorem step_answers (hs : s.frame.Solid) (hbyte : op.byte = s.frame.nextByte)
    (hop : ∀ k : Host σ, op.request? k = none)
    (hsame : ∀ refund, op.run { h with refund := refund } = op.run h) : ∃ t, s.step h = .ok t := by
  -- A host that refuses no refund leaves no way for the step to be without one.
  let lenient : Host σ := { h with refund := fun _ w => .ok w }
  have hstep : s.step lenient = s.step h := by
    rw [step_eq, step_eq, Opcode.ofByte?_eq_some_iff.mpr hbyte, execute, execute, hsame]
  have hsteps : s.Steps lenient True (s.Asking lenient) (s.step lenient) := step_steps fun _ => hs
  rw [hstep] at hsteps
  generalize s.step h = x at hsteps
  cases hsteps with
  | goes follows => exact ⟨_, rfl⟩
  | ends follows ended => exact ⟨_, rfl⟩
  | asks asking follows asked =>
    obtain ⟨op', x, hop', hrequest, -⟩ := asking
    rw [Opcode.ofByte?_eq_some_iff.mpr hbyte] at hop'
    cases hop'
    rw [hop lenient] at hrequest
    cases hrequest
  | outOfRange loose => exact absurd trivial loose
  | refund fails =>
    obtain ⟨-, amount, w, failed⟩ := fails
    cases failed

theorem copy_answers (hs : s.frame.Solid) (hbyte : op.byte = s.frame.nextByte)
    (hop : op.copyTerms? s.frame.stack = some c) : ∃ t, s.step h = .ok t := by
  refine step_answers hs hbyte (fun k => Opcode.request?_of_copyTerms hop) fun refund => ?_
  cases op <;> first | rfl | cases hop

theorem step_copies (hs : s.frame.Solid) (hbyte : op.byte = s.frame.nextByte)
    (hop : op.copyTerms? s.frame.stack = some c) (ht : s.step h = .ok t)
    (running : t.frame.status = .running) :
    ∃ data, op.source? h s = some data ∧
      (data.size < Amount.max → s.frame.Copied c data t.frame) := by
  obtain ⟨hexecute, -⟩ | herror | ⟨-, hended⟩ := (step_trades hbyte).1 t ht
  · have hcharged : op.source? h ⟨s.frame.charged op, s.world⟩ = op.source? h s := by
      cases op <;> rfl
    obtain ⟨data, hdata, hbytes⟩ :=
      Opcode.run_copies (s := ⟨s.frame.charged op, s.world⟩) hop (execute_charged hexecute)
    rw [hcharged] at hdata
    refine ⟨data, hdata, fun hsize => ?_⟩
    -- The instruction says what it writes; that it writes nowhere else is known of all steps.
    obtain ⟨hextends, hplaces⟩ := step_uses hs.memory ht
    have hstretches : s.frame.stretches = [⟨c.target, c.length, true⟩] := by
      rw [Frame.stretches, Frame.regions, Opcode.ofByte?_eq_some_iff.mpr hbyte]
      exact Opcode.stretches_of_copyTerms hop
    rw [hstretches] at hextends hplaces
    refine ⟨?_, fun i hi => ?_, fun i hi => ?_, hextends.grows⟩
    · exact hplaces running _ (List.mem_singleton_self _)
    · rw [hbytes i hi, Bytes.at0_clamp _ hsize]
    · refine hextends.kept i fun r hr _ hholds => ?_
      cases List.mem_singleton.mp hr
      simp only [Stretch.Holds, Stretch.stop] at hholds
      omega
  · rw [running] at herror
    cases herror
  · exact absurd running hended

/-- The 32 bytes of input from a position on are read as a word. -/
theorem callDataLoad_computes {offset : Word} {rest : List Word}
    (hstack : s.frame.stack.items = offset :: rest)
    (hsize : s.frame.invocation.input.size < Amount.max) :
    s.Computes h .callDataLoad (.ofNat (s.frame.invocation.input.valueAt offset.toNat 32) :: rest) := by
  have hword : (s.frame.invocation.input.window offset.clamp 32).toWord =
      .ofNat (s.frame.invocation.input.valueAt offset.toNat 32) := by
    rw [Bytes.window_clamp offset 32 hsize, Bytes.toWord, Bytes.toNat_window]
    rfl
  refine .of_here rfl ?_
  rw [← hword]
  obtain ⟨⟨invocation, pc, status, gas, memory, ⟨items⟩, returnData, output⟩, w⟩ := s
  cases hstack
  rfl

/-- Whether reading past the end of the output ends the frame. -/
theorem returnDataCopy_settles {target offset len : Word} {rest : List Word} {cost : Nat}
    (hbyte : Opcode.returnDataCopy.byte = s.frame.nextByte) (running : s.frame.status = .running)
    (hfork : s.frame.rules.since .byzantium = true)
    (hstack : s.frame.stack.items = target :: offset :: len :: rest)
    (hlen : len.toNat < UInt64.size) (hprice : Price.copyLow len.toNat = some cost)
    (hcost : cost ≤ s.frame.gas.remaining) (hsize : s.frame.returnData.size < Amount.max)
    (ht : s.step h = .ok t) :
    t.frame.status = .outOfOffset ↔ s.frame.returnData.size < offset.toNat + len.toNat := by
  have hends := returnDataCopy_ends (f := s.frame.charged .returnDataCopy) hfork hstack hlen hprice hcost
  have hpast := Bytes.clamp_add_le_iff offset len.toNat hsize
  rw [step_charged hbyte (Nat.zero_le _), Opcode.run, settle_here] at ht
  obtain ⟨f, hf, rfl⟩ := Except.map_eq_ok ht
  simp only [Frame.settle] at hf
  rw [← Nat.not_le, ← hpast, Nat.not_le]
  cases hrun : returnDataCopy (s.frame.charged .returnDataCopy) with
  | ok a g =>
    obtain ⟨hinside, hstatus⟩ := hends.ok hrun
    rw [hrun] at hf
    cases hf
    rw [hstatus.trans running]
    exact iff_of_false (by decide) (Nat.not_lt.mpr hinside)
  | error e g =>
    have hrefused := hends.error hrun
    rw [hrun] at hf
    cases e with
    | status e =>
      cases hf
      exact Ending.status.injEq _ _ ▸ hrefused
    | fault e => cases hf

/-- Data is read with zeros past its end, from any position on. A word of the input is that of the 32 bytes
there. An opcode that copies always has an answer, and if the frame goes on, memory holds the bytes of the
data and has changed nowhere else. Past the end of the output of a nested frame nothing is copied: once its
length is paid for, a range that does not lie within it ends the frame, even an empty one. That positions
are clamped to 64 bits is never seen. -/
theorem reads_beyond_data {i : Invocation} {limit : Nat} {w : σ}
    (reached : h.StepsTo ⟨.start i limit, w⟩ s) (running : s.frame.status = .running) :
    (∀ (offset : Word) (rest : List Word), s.frame.stack.items = offset :: rest →
      s.frame.invocation.input.size < Amount.max →
        ∃ value : Word, s.Computes h .callDataLoad (value :: rest) ∧ value.toNat =
          ∑ k ∈ range 32, (s.frame.invocation.input.at0 (offset.toNat + k)).toNat * 256 ^ (31 - k)) ∧
    (∀ (op : Opcode) (c : CopyTerms), op.byte = s.frame.nextByte → op.copyTerms? s.frame.stack = some c →
      ∃ t, s.step h = .ok t ∧
        (t.frame.status = .running → ∃ data, op.source? h s = some data ∧
          (data.size < Amount.max → s.frame.Copied c data t.frame))) ∧
    (∀ (target offset len : Word) (rest : List Word) (cost : Nat),
      Opcode.returnDataCopy.byte = s.frame.nextByte →
      s.frame.rules.since .byzantium = true →
      s.frame.stack.items = target :: offset :: len :: rest →
      len.toNat < UInt64.size → Price.copyLow len.toNat = some cost →
      cost ≤ s.frame.gas.remaining → s.frame.returnData.size < Amount.max →
        ∃ t, s.step h = .ok t ∧
          (t.frame.status = .outOfOffset ↔
            s.frame.returnData.size < offset.toNat + len.toNat) ∧
          (t.frame.status = .running →
            offset.toNat + len.toNat ≤ s.frame.returnData.size ∧
            t.frame.memory.data.extract target.toNat (target.toNat + len.toNat) =
              s.frame.returnData.extract offset.toNat (offset.toNat + len.toNat))) ∧
    ∀ (data : Bytes) (offset : Word) (len : Nat), data.size < Amount.max →
      data.window offset.clamp len = data.window offset.toNat len ∧
      (offset.clamp + len ≤ data.size ↔ offset.toNat + len ≤ data.size) := by
  have hsolid := steps_solid (Frame.start_solid i limit) reached
  refine ⟨fun offset rest hstack hsize => ?_, fun op c hbyte hop => ?_, ?_,
    fun data offset len hsize => ⟨Bytes.window_clamp offset len hsize,
      Bytes.clamp_add_le_iff offset len hsize⟩⟩
  · refine ⟨_, callDataLoad_computes hstack hsize, ?_⟩
    exact Bytes.toNat_valueAt (Nat.le_refl 32)
  · obtain ⟨t, ht⟩ := copy_answers hsolid hbyte hop
    exact ⟨t, ht, step_copies hsolid hbyte hop ht⟩
  · intro target offset len rest cost hbyte hfork hstack hlen hprice hcost hsize
    obtain ⟨t, ht⟩ := copy_answers hsolid hbyte rfl
    have hended := returnDataCopy_settles hbyte running hfork hstack hlen hprice hcost hsize ht
    refine ⟨t, ht, hended, fun hgoes => ?_⟩
    have hin : offset.toNat + len.toNat ≤ s.frame.returnData.size :=
      Nat.not_lt.mp fun hpast => Status.noConfusion (hgoes.symm.trans (hended.mpr hpast))
    have hterms : Opcode.returnDataCopy.copyTerms? s.frame.stack =
        some ⟨target.toNat, offset, len.toNat⟩ := by
      simp only [Opcode.copyTerms?, Stack.operand, hstack, List.getD_cons_zero, List.getD_cons_succ]
    obtain ⟨data, hdata, hcopied⟩ := step_copies hsolid hbyte hterms ht hgoes
    cases hdata
    exact ⟨hin, (hcopied hsize).extract hin⟩

/-- Code that copies two bytes of itself, from its last one on. -/
def copying : Invocation :=
  { storing with code := .ofBytes ⟨#[0x60, 2, 0x60, 6, 0x60, 0, 0x39]⟩ }

theorem reads_beyond_data_copying :
    ∃ s t : Machine Unit, Host.mute.StepsTo ⟨.start copying 100, ()⟩ s ∧ s.frame.status = .running ∧
      s.step .mute = .ok t ∧ t.frame.status = .running ∧
      t.frame.memory.data.at0 0 = 0x39 ∧ t.frame.memory.data.at0 1 = 0 := by
  have hrun : ((⟨.start copying 100, ()⟩ : Machine Unit).runFor .mute 3).map
      (fun s => (s.frame.invocation.code.bytes, s.frame.status, s.frame.nextByte, s.frame.stack.items,
        (s.step .mute).map fun t => t.frame.status)) =
      .ok (copying.code.bytes, .running, Opcode.codeCopy.byte, [0, 6, 2], .ok .running) := by
    decide +kernel
  obtain ⟨s, hs, hfound⟩ := Except.map_eq_ok hrun
  simp only [Prod.mk.injEq] at hfound
  obtain ⟨hcode, hrunning, hbyte, hitems, hgoes⟩ := hfound
  have reached := steps_of_runFor hs
  obtain ⟨-, hcopies, -⟩ := reads_beyond_data reached hrunning
  have hterms : Opcode.codeCopy.copyTerms? s.frame.stack = some ⟨0, 6, 2⟩ := by
    simp only [Opcode.copyTerms?, Stack.operand, hitems]
    rfl
  obtain ⟨t, ht, hcopied⟩ := hcopies .codeCopy ⟨0, 6, 2⟩ hbyte.symm hterms
  rw [ht] at hgoes
  have hstatus : t.frame.status = .running := Except.ok.inj hgoes
  obtain ⟨data, hdata, htaken⟩ := hcopied hstatus
  cases hdata
  rw [hcode] at htaken
  have hbytes := (htaken (by decide +kernel)).bytes
  exact ⟨s, t, reached, hrunning, ht, hstatus, hbytes 0 (by decide), hbytes 1 (by decide)⟩

end Machine

end MeteredVM
