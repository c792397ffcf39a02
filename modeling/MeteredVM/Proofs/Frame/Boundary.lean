import Mathlib.Algebra.BigOperators.Ring.Finset
import MeteredVM.Proofs.Frame.Table

namespace MeteredVM

open Exec Instruction Finset

variable {σ : Type}

namespace Bytes

/-- The number that the `n` bytes from `start` on stand for, the most significant one first. -/
def valueAt (b : Bytes) (start n : Nat) : Nat :=
  ∑ k ∈ range n, (b.at0 (start + k)).toNat * 256 ^ (n - 1 - k)

variable {b c : Bytes} {start n : Nat}

theorem valueAt_succ (b : Bytes) (start n : Nat) :
    b.valueAt start (n + 1) = b.valueAt start n * 256 + (b.at0 (start + n)).toNat := by
  rw [valueAt, sum_range_succ, valueAt, sum_mul]
  congr 1
  · apply sum_congr rfl
    intro k hk
    have hk := mem_range.mp hk
    rw [Nat.mul_assoc, ← Nat.pow_succ]
    congr 2
    omega
  · rw [Nat.add_sub_cancel, Nat.sub_self, Nat.pow_zero, Nat.mul_one]

theorem valueAt_lt (b : Bytes) (start n : Nat) : b.valueAt start n < 256 ^ n := by
  induction n with
  | zero => exact Nat.one_pos
  | succ n ih =>
    have hbyte := (b.at0 (start + n)).toNat_lt
    rw [valueAt_succ, Nat.pow_succ]
    omega

theorem toNat_extract (h : start + n ≤ b.size) :
    Bytes.toNat (b.extract start (start + n)) = b.valueAt start n := by
  induction n with
  | zero => simp [toNat, valueAt]
  | succ n ih =>
    have hlast : start + n < b.data.size := h
    have hat : b.at0 (start + n) = b.data[start + n] := dif_pos h
    rw [valueAt_succ, ← ih (by omega), hat]
    simp only [toNat, ByteArray.data_extract]
    rw [← Nat.add_assoc, Array.extract_succ_right (by omega) hlast, Array.foldl_push]

theorem toNat_valueAt (hn : n ≤ 32) : (Word.ofNat (b.valueAt start n)).toNat = b.valueAt start n := by
  apply Nat.mod_eq_of_lt
  calc b.valueAt start n < 256 ^ n := b.valueAt_lt start n
    _ ≤ 256 ^ 32 := Nat.pow_le_pow_right (by decide) hn

theorem valueAt_congr (h : ∀ i, b.at0 i = c.at0 i) : b.valueAt start n = c.valueAt start n := by
  simp only [valueAt, h]

end Bytes

namespace Opcode

/-- The sweep passes as many bytes after an opcode as belong to it. -/
theorem dataAfter_byte (op : Opcode) : dataAfter op.byte = op.info.immediate := by
  cases op with
  | push n => exact dataAfter_push n
  | dup n => exact (by decide : ∀ n, dataAfter (dup n).byte = 0) n
  | swap n => exact (by decide : ∀ n, dataAfter (swap n).byte = 0) n
  | log n => exact (by decide : ∀ n, dataAfter (log n).byte = 0) n
  | _ => decide

theorem immediate_le (op : Opcode) : op.info.immediate ≤ 32 := by
  cases op with
  | push n => exact n.isLt
  | _ => exact Nat.zero_le _

end Opcode

/-- The data of a push is read to its end, and zeros past the end of the code. -/
theorem Instruction.pushBytes_eq {f : Frame} {n : Nat} (hn : n ≤ 32)
    (hpc : f.pc ≤ f.invocation.code.length) :
    pushBytes n f = (do
      Local.push (.ofNat (f.invocation.code.bytes.valueAt f.pc n))
      modify fun g => { g with pc := f.pc + n } : Local Unit) f := by
  have hsize := f.invocation.code.size_padded
  simp only [Code.length, Code.padding] at hpc hsize
  have hin : f.pc + n ≤ f.invocation.code.padded.size := by omega
  have hslice : f.invocation.code.slice f.pc n =
      .ok (f.invocation.code.padded.extract f.pc (f.pc + n)) := if_pos hin
  have hlength : (f.invocation.code.padded.extract f.pc (f.pc + n)).size = n := by
    rw [ByteArray.size_extract]
    omega
  have hword : Bytes.toWord (f.invocation.code.padded.extract f.pc (f.pc + n)) =
      .ofNat (f.invocation.code.bytes.valueAt f.pc n) := by
    rw [Bytes.toWord, Bytes.toNat_extract hin, Bytes.valueAt_congr f.invocation.code.at0_padded]
    rfl
  have hpush : ∀ stack : Stack,
      stack.pushBytes (f.invocation.code.padded.extract f.pc (f.pc + n)) =
        stack.push (.ofNat (f.invocation.code.bytes.valueAt f.pc n)) := by
    intro stack
    rw [Stack.pushBytes, if_neg (by omega), hword]
  have hread : pushBytes n f = (do
      let data ← Local.checked (f.invocation.code.slice f.pc n)
      Local.onStack (·.pushBytes data)
      modify fun g => { g with pc := f.pc + n } : Local Unit) f := rfl
  rw [hread, hslice]
  simp only [Local.checked, Bind.bind, EStateM.bind, Local.push, Local.onStack, hpush]

namespace Frame

structure Aligned (f : Frame) : Prop where
  boundary : Code.Boundary f.invocation.code.padded f.pc
  inside : f.pc < f.invocation.code.padded.size
  fits : f.stack.length ≤ Stack.limit

theorem start_aligned (i : Invocation) (limit : Nat) : (start i limit).Aligned := by
  refine ⟨.start, ?_, Nat.zero_le _⟩
  rw [Code.size_padded]
  exact Nat.succ_pos _

/-- What steps keep of a frame: what it runs, that it has ended if it has, and that its gas fits in 64
bits. -/
structure Kept (f g : Frame) : Prop where
  invocation : g.invocation = f.invocation
  status : g.status = f.status ∨ g.status.endsFrame = true
  fits : f.gas.remaining ≤ Amount.max → g.gas.remaining ≤ Amount.max

namespace Kept

variable {f g k : Frame}

theorem of_follows {P : Prop} {n : Nat} (h : f.Follows P n g) : f.Kept g := by
  have hpaid := h.paid
  exact ⟨h.invocation, h.status, fun hmax => by omega⟩

theorem trans (hfg : f.Kept g) (hgk : g.Kept k) : f.Kept k := by
  refine ⟨hgk.invocation.trans hfg.invocation, ?_, fun hmax => hgk.fits (hfg.fits hmax)⟩
  obtain hsame | hended := hgk.status
  · rw [hsame]
    exact hfg.status
  · exact .inr hended

end Kept

end Frame

namespace Machine

variable {h : Host σ} {s t : Machine σ} {op : Opcode}

theorem Served.kept {P : Prop} {r : Request} {x : Except Fault (Machine σ)} (hx : s.Served h P r x)
    (ht : x = .ok t) : s.frame.Kept t.frame := by
  have resumed : ∀ {left : Nat} {y : Except Fault Frame} {w : σ}, s.frame.Resumes P left y →
      (y.map fun f => (⟨f, w⟩ : Machine σ)) = .ok t → s.frame.Kept t.frame := by
    intro left y w hy hyt
    obtain ⟨f, hf, rfl⟩ := Except.map_eq_ok hyt
    cases hy with
    | goes follows fits =>
      cases hf
      exact ⟨follows.invocation, follows.status, fits⟩
    | outOfRange loose => cases hf
    | overflow large => cases hf
  cases hx with
  | call answered hy => exact resumed hy ht
  | create answered hy => exact resumed hy ht
  | callFails failed => cases ht
  | createFails failed => cases ht

theorem step_kept (ht : s.step h = .ok t) : s.frame.Kept t.frame := by
  have hsteps : s.Steps h False (s.Asking h) (s.step h) := step_steps False.elim
  generalize s.step h = x at hsteps ht
  cases hsteps with
  | goes follows =>
    cases ht
    exact .of_follows follows.frame
  | ends follows ended =>
    cases ht
    exact .of_follows follows.frame
  | asks asking follows asked =>
    exact (Frame.Kept.of_follows follows.frame).trans ((serve_served False.elim False.elim).kept ht)
  | outOfRange loose => cases ht
  | refund fails => cases ht

theorem running_of_step (ht : s.step h = .ok t) (running : t.frame.status = .running) :
    s.frame.status = .running := by
  obtain hsame | hended := (step_kept ht).status
  · rw [← hsame, running]
  · exact absurd running (Status.ne_running_of_endsFrame hended)

theorem steps_kept (ht : h.StepsTo s t) : s.frame.Kept t.frame := by
  induction ht with
  | refl => exact ⟨rfl, .inl rfl, id⟩
  | tail _ hstep ih => exact ih.trans (step_kept hstep)

/-- A frame that runs on has carried out an instruction that lets it. -/
theorem step_executes (ht : s.step h = .ok t) (running : t.frame.status = .running) :
    ∃ op : Opcode, op.byte = s.frame.nextByte ∧ op.info.ends = false ∧
      execute h (some op) s.passed = .ok () t := by
  cases hop : Opcode.ofByte? s.frame.nextByte with
  | none =>
    rw [step_eq, hop] at ht
    cases ht
    cases running
  | some op =>
    have hbyte := Opcode.ofByte?_eq_some_iff.mp hop
    obtain ⟨hexecute, -⟩ | herror | ⟨-, hended⟩ := (step_trades hbyte).1 t ht
    · refine ⟨op, hbyte, ?_, hexecute⟩
      cases hends : op.info.ends with
      | false => rfl
      | true => exact absurd hexecute (Halts.bind (fun _ => Opcode.run_halts hends) _ _ _)
    · rw [running] at herror
      cases herror
    · exact absurd running hended

/-- Past the end of the code a frame finds only the opcode that stops it. -/
theorem pc_lt_of_goes_on (hbyte : op.byte = s.frame.nextByte) (hends : op.info.ends = false) :
    s.frame.pc < s.frame.invocation.code.length := by
  apply Nat.lt_of_not_le
  intro hle
  have hzero : op.byte = Opcode.stop.byte := hbyte.trans (Code.byteAt_of_length_le hle)
  have hop := Opcode.ofByte?_eq_some_iff.mpr hzero
  rw [Opcode.ofByte?_eq_some_iff.mpr rfl] at hop
  obtain rfl := Option.some.inj hop
  cases hends

theorem step_aligned (hs : s.frame.Aligned) (ht : s.step h = .ok t)
    (running : t.frame.status = .running) : t.frame.Aligned := by
  obtain ⟨op, hbyte, hends, hexecute⟩ := step_executes ht running
  have hperforms := step_performs hbyte hs.fits ht running
  have hpc := hperforms.pc
  cases htarget : op.target? s.frame.stack with
  | some pos =>
    have hjump : op.passes = none := by
      obtain ⟨hjump, -⟩ | ⟨-, hnone⟩ := op.passes_eq
      · exact hjump
      · rw [hnone] at htarget
        cases htarget
    have hmarked : s.frame.invocation.code.isDestination pos = true :=
      (execute_lands hexecute hjump).2 pos htarget
    obtain ⟨hinside, -, hboundary⟩ := Code.isDestination_iff_padded.mp hmarked
    rw [htarget, Option.getD_some] at hpc
    refine ⟨?_, ?_, hperforms.within⟩
    · rwa [(step_kept ht).invocation, hpc]
    · rwa [(step_kept ht).invocation, hpc]
  | none =>
    have hnext := hs.boundary.next hs.inside
    have hhere : s.frame.invocation.code.padded.at0 s.frame.pc = op.byte := hbyte.symm
    have hlt := pc_lt_of_goes_on hbyte hends
    have hsize := s.frame.invocation.code.size_padded
    have hdata := op.immediate_le
    simp only [Code.length, Code.padding] at hlt hsize
    rw [hhere, op.dataAfter_byte] at hnext
    rw [htarget, Option.getD_none] at hpc
    refine ⟨?_, ?_, hperforms.within⟩
    · rwa [(step_kept ht).invocation, hpc]
    · rw [(step_kept ht).invocation, hpc]
      omega

theorem steps_aligned {i : Invocation} {limit : Nat} {w : σ}
    (reached : h.StepsTo ⟨.start i limit, w⟩ s) (running : s.frame.status = .running) :
    s.frame.Aligned := by
  induction reached with
  | refl => exact Frame.start_aligned i limit
  | tail _ hstep ih => exact step_aligned (ih (running_of_step hstep running)) hstep running

/-- A push puts the number on the stack that its data stands for, or ends the frame for want of gas or of
room on the stack. -/
theorem step_push {n : Fin 32} (hbyte : (Opcode.push n).byte = s.frame.nextByte) :
    ∃ t, s.step h = .ok t ∧
      ((3 ≤ s.frame.gas.remaining ∧ s.frame.stack.length ≠ Stack.limit) ∧
          t.frame.status = s.frame.status ∧ t.frame.pc = s.frame.pc + 1 + (n + 1) ∧
          t.frame.stack.items =
            .ofNat (s.frame.invocation.code.bytes.valueAt (s.frame.pc + 1) (n + 1)) ::
              s.frame.stack.items ∨
        ¬(3 ≤ s.frame.gas.remaining ∧ s.frame.stack.length ≠ Stack.limit) ∧
          t.frame.status ≠ .running) := by
  have hlt : s.frame.pc + 1 ≤ s.frame.invocation.code.length := pc_lt_of_goes_on hbyte rfl
  by_cases hgas : 3 ≤ s.frame.gas.remaining
  · rw [step_charged hbyte hgas, Opcode.run, settle_here, Frame.settle, pushBytes_eq n.isLt hlt]
    simp only [Local.push, Local.onStack, Stack.push, Bind.bind, EStateM.bind]
    by_cases hfull : s.frame.stack.items.length = Stack.limit
    · have hroom : (s.frame.charged (.push n)).stack.items.length = Stack.limit := hfull
      rw [if_pos hroom]
      exact ⟨_, rfl, .inr ⟨fun h => h.2 hfull, Status.noConfusion⟩⟩
    · have hroom : ¬(s.frame.charged (.push n)).stack.items.length = Stack.limit := hfull
      rw [if_neg hroom]
      exact ⟨_, rfl, .inl ⟨⟨hgas, hfull⟩, rfl, rfl, rfl⟩⟩
  · exact ⟨_, step_unpaid hbyte hgas, .inr ⟨fun h => hgas h.1, Status.noConfusion⟩⟩

/-- The position of a frame that runs is always the beginning of an instruction. One may jump to the
instructions of the code itself that are marked for it, and the zeros after the code are no part of what it
was given as. A push that a frame finds puts the number on the stack that its data stands for, with zeros
past the end of the code, unless gas or room on the stack is wanting. -/
theorem positions_are_boundaries (h : Host σ) (b : Bytes) :
    (∀ pos, (Code.ofBytes b).isDestination pos = true ↔
      pos < b.size ∧ b.at0 pos = 0x5b ∧ Code.Boundary b pos) ∧
    (Code.ofBytes b).padded.extract 0 (Code.ofBytes b).length = b ∧
    ∀ (i : Invocation) (limit : Nat) (w : σ) (s : Machine σ),
      h.StepsTo ⟨.start { i with code := .ofBytes b } limit, w⟩ s → s.frame.status = .running →
        s.frame.pc < (Code.ofBytes b).padded.size ∧
        Code.Boundary (Code.ofBytes b).padded s.frame.pc ∧
        ∀ n : Fin 32, b.at0 s.frame.pc = (Opcode.push n).byte →
          ∃ t, s.step h = .ok t ∧
            (t.frame.status = .running ↔
              3 ≤ s.frame.gas.remaining ∧ s.frame.stack.length < Stack.limit) ∧
            (t.frame.status = .running →
              t.frame.pc = s.frame.pc + 1 + (n + 1) ∧
              ∃ value : Word, t.frame.stack.items = value :: s.frame.stack.items ∧
                value.toNat = ∑ k ∈ range (n + 1),
                  (b.at0 (s.frame.pc + 1 + k)).toNat * 256 ^ (n.val - k)) := by
  refine ⟨fun pos => Code.isDestination_iff, ?_, fun i limit w s reached running => ?_⟩
  · exact ByteArray.extract_append_eq_left rfl
  have haligned := steps_aligned reached running
  have hcode : s.frame.invocation.code = .ofBytes b := by rw [(steps_kept reached).invocation]; rfl
  refine ⟨hcode ▸ haligned.inside, hcode ▸ haligned.boundary, fun n hn => ?_⟩
  have hbyte : (Opcode.push n).byte = s.frame.nextByte := by
    rw [Frame.nextByte, Code.byteAt, hcode, Code.at0_padded]
    exact hn.symm
  obtain ⟨t, ht, hpush⟩ := step_push (h := h) hbyte
  rw [hcode] at hpush
  have hroom : s.frame.stack.length ≠ Stack.limit ↔ s.frame.stack.length < Stack.limit :=
    ⟨Nat.lt_of_le_of_ne haligned.fits, Nat.ne_of_lt⟩
  rw [hroom] at hpush
  obtain ⟨henough, hstatus, hpc, hstack⟩ | ⟨hshort, hended⟩ := hpush
  · refine ⟨t, ht, ⟨fun _ => henough, fun _ => hstatus.trans running⟩, fun _ => ⟨hpc, _, hstack, ?_⟩⟩
    exact Bytes.toNat_valueAt n.isLt
  · exact ⟨t, ht, ⟨fun hruns => absurd hruns hended, fun henough => absurd henough hshort⟩,
      fun hruns => absurd hruns hended⟩

/-- Code that ends within the data of a push. -/
def truncated : Bytes := ⟨#[0x61, 0x01]⟩

theorem positions_are_boundaries_truncated :
    ∃ t : Machine Unit,
      step .mute ⟨.start { storing with code := .ofBytes truncated } 100, ()⟩ = .ok t ∧
        t.frame.status = .running ∧ t.frame.pc = 3 ∧
        ∃ value : Word, t.frame.stack.items = [value] ∧ value.toNat = 0x0100 := by
  obtain ⟨-, -, hruns⟩ := positions_are_boundaries .mute truncated
  obtain ⟨-, -, hpush⟩ := hruns storing 100 () ⟨.start { storing with code := .ofBytes truncated } 100, ()⟩
    .refl rfl
  obtain ⟨t, ht, hgoes, hvalue⟩ := hpush 1 (by decide)
  have running := hgoes.mpr ⟨by decide, by decide⟩
  obtain ⟨hpc, value, hstack, hsum⟩ := hvalue running
  exact ⟨t, ht, running, hpc, value, hstack, hsum.trans (by decide)⟩

end Machine

end MeteredVM
