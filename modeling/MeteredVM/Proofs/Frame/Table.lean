import MeteredVM.Proofs.Frame.Operands

namespace MeteredVM

open Exec Instruction

variable {σ : Type} {E F : Prop}

/-- The frame has jumped to the target, to which one may jump, or without a target has stayed. -/
def Frame.Lands (target? : Option Nat) (f g : Frame) : Prop :=
  g.pc = target?.getD f.pc ∧ ∀ pos ∈ target?, f.invocation.code.isDestination pos = true

theorem Frame.Lands.of_same {target? : Option Nat} {f g k : Frame} (h : g.Lands target? k)
    (pc : g.pc = f.pc) (invocation : g.invocation = f.invocation) : f.Lands target? k := by
  rw [Lands, ← pc, ← invocation]
  exact h

def Frame.charged (op : Opcode) (f : Frame) : Frame :=
  { f with
    pc := f.pc + 1
    gas := { f.gas with remaining := f.gas.remaining - op.info.gas } }

namespace Instruction

open Local

section Jumps

variable {f : Frame}

theorem pop_reads (n : Nat) : Ends (Local.pop n) f (fun _ _ => True) fun args g =>
    (∀ i, args i = f.stack.operand i) ∧ g.pc = f.pc ∧ g.invocation = f.invocation := by
  simp only [Ends, Local.pop]
  cases h : f.stack.popN n with
  | ok r => exact ⟨(Stack.popN_ok h).1, rfl, rfl⟩
  | error e => trivial

theorem jumpTo_lands (target : Word) :
    Ends (jumpTo target) f (fun _ _ => True) fun _ g => f.Lands (some target.toNat) g := by
  simp only [jumpTo]
  split
  · rename_i pos hpos
    have htarget : pos = target.toNat := by
      simp only [Word.amount?] at hpos
      split at hpos
      · exact (Option.some.inj hpos).symm
      · cases hpos
    have hensure : Ends (Local.ensure (f.invocation.code.isDestination pos) .invalidJump) f
        (fun _ _ => True) fun _ _ => f.invocation.code.isDestination pos = true := by
      simp only [Local.ensure]
      split
      · rename_i hmarked
        exact .pure hmarked
      · exact .throw trivial
    apply Ends.bind .get
    rintro _ _ ⟨rfl, rfl⟩
    apply Ends.bind hensure
    intro _ g hmarked
    refine Ends.modify.imp fun _ k hk => ⟨by rw [hk, htarget]; rfl, ?_⟩
    rintro _ ⟨⟩
    rwa [← htarget]
  · exact .throw trivial

theorem jump_lands : Ends jump f (fun _ _ => True) fun _ g =>
    f.Lands (some (f.stack.operand 0).toNat) g := by
  have hpop : Ends pop1 f (fun _ _ => True) fun target g =>
      target = f.stack.operand 0 ∧ g.pc = f.pc ∧ g.invocation = f.invocation :=
    .bind (pop_reads 1) fun _ _ h => .pure ⟨h.1 0, h.2⟩
  apply Ends.bind hpop
  rintro _ g ⟨rfl, hpc, hsame⟩
  exact (jumpTo_lands _).imp fun _ _ h => h.of_same hpc hsame

theorem jumpIf_lands : Ends jumpIf f (fun _ _ => True) fun _ g =>
    f.Lands (if f.stack.operand 1 = 0 then none else some (f.stack.operand 0).toNat) g := by
  have hpop : Ends pop2 f (fun _ _ => True) fun r g =>
      r = (f.stack.operand 0, f.stack.operand 1) ∧ g.pc = f.pc ∧ g.invocation = f.invocation :=
    .bind (pop_reads 2) fun _ _ h => .pure ⟨Prod.ext (h.1 0) (h.1 1), h.2⟩
  apply Ends.bind hpop
  rintro _ g ⟨rfl, hpc, hsame⟩
  by_cases hzero : f.stack.operand 1 = 0
  · simp only [hzero, ne_eq, not_true_eq_false, if_false, if_true]
    exact .pure ⟨hpc, nofun⟩
  · simp only [hzero, ne_eq, not_false_eq_true, if_false, if_true]
    exact (jumpTo_lands _).imp fun _ _ h => h.of_same hpc hsame

end Jumps

section Endings

def Halts {S α : Type} (x : EStateM Ending S α) : Prop := ∀ s a t, x s ≠ .ok a t

variable {S α β : Type}

theorem Halts.bind {x : EStateM Ending S α} {k : α → EStateM Ending S β} (hk : ∀ a, Halts (k a)) :
    Halts (x >>= k) := by
  intro s b u hu
  obtain ⟨a, t, -, hu⟩ := Exec.bind_eq_ok hu
  exact hk a t b u hu

theorem Halts.here {x : Local α} (hx : Halts x) : Halts (here x : Exec σ α) :=
  fun _ a _ ht => hx _ a _ (Exec.here_eq_ok ht).1

theorem halt_halts (e : Status) : Halts (Local.halt e : Local α) := by
  intro f a g hg
  cases hg

theorem finish_halts (e : Status) : Halts (finish e) := by
  refine .bind fun _ => .bind fun len => ?_
  dsimp only
  split
  · exact .bind fun _ => halt_halts e
  · exact .bind fun _ => .bind fun _ => .bind fun _ => halt_halts e

theorem selfDestruct_halts (h : Host σ) : Halts (selfDestruct h) := by
  have ending : ∀ cost, Halts (endDestruct cost : Exec σ Unit) :=
    fun _ => .bind fun _ => .here (halt_halts _)
  refine .bind fun _ => .bind fun _ => .bind fun _ => .bind fun _ => .bind fun _ => ?_
  split
  · exact .bind fun _ => ending _
  · exact ending _

end Endings

end Instruction

namespace Opcode

variable {h : Host σ} {s : Machine σ}

def target? (op : Opcode) (stack : Stack) : Option Nat :=
  match op with
  | jump => some (stack.operand 0).toNat
  | jumpIf => if stack.operand 1 = 0 then none else some (stack.operand 0).toNat
  | _ => none

theorem run_halts {op : Opcode} (hends : op.info.ends = true) : Halts (op.run h) := by
  cases op with
  | stop => exact .here (halt_halts _)
  | invalid => exact .here (halt_halts _)
  | ret => exact .here (finish_halts _)
  | revert => exact .here (.bind fun _ => finish_halts _)
  | selfDestruct => exact selfDestruct_halts h
  | _ => cases hends

theorem run_lands {op : Opcode} {t : Machine σ} (ht : op.run h s = .ok () t)
    (hjump : op.passes = none) : s.frame.Lands (op.target? s.frame.stack) t.frame := by
  cases op with
  | jump => exact jump_lands.ok (Exec.here_eq_ok ht).1
  | jumpIf => exact jumpIf_lands.ok (Exec.here_eq_ok ht).1
  | _ => cases hjump

/-- Only jumps do not simply pass their byte and what belongs to it. -/
theorem passes_eq (op : Opcode) :
    op.passes = none ∧ op.info.immediate = 0 ∨
      op.passes = some op.info.immediate ∧ ∀ stack, op.target? stack = none := by
  cases op <;> first | exact .inl ⟨rfl, rfl⟩ | exact .inr ⟨rfl, fun _ => rfl⟩

theorem ofByte?_eq_find? (b : UInt8) :
    ofByte? b = all.find? fun op => op.byte.toNat == b.toNat := by
  have hb : b.toNat < 256 := b.toNat_lt
  simp only [ofByte?, decoded, Array.getElem?_ofFn, hb, dite_true]
  rfl

theorem find?_byte : ∀ op ∈ all, all.find? (fun o => o.byte.toNat == op.byte.toNat) = some op := by
  decide +kernel

theorem ofByte?_eq_some_iff {b : UInt8} {op : Opcode} : ofByte? b = some op ↔ op.byte = b := by
  constructor
  · intro hop
    rw [ofByte?_eq_find?] at hop
    have hsame := List.find?_some hop
    exact UInt8.toNat_inj.mp (by simpa using hsame)
  · rintro rfl
    rw [ofByte?_eq_find?]
    exact find?_byte op (mem_all op)

end Opcode

/-- A step with the opcode from `f` to `g` does to stack and position what the table says. -/
structure Frame.Performs (op : Opcode) (f g : Frame) : Prop where
  enough : op.info.inputs ≤ f.stack.length
  length : (g.stack.length : Int) = f.stack.length + op.info.growth
  within : g.stack.length ≤ Stack.limit
  below : g.stack.items.drop op.info.outputs = f.stack.items.drop op.info.inputs
  pc : g.pc = (op.target? f.stack).getD (f.pc + 1 + op.info.immediate)

namespace Machine

variable {h : Host σ} {s t : Machine σ} {op : Opcode}

theorem execute_trades (op : Opcode) (hE : op.info.inputs ≤ s.frame.stack.items.length → E)
    (hF : op.info.inputs ≤ s.frame.stack.items.length → F) (hloose : ¬s.frame.Solid → F) :
    Trades Machine.frame E F op.info.inputs op.info.outputs op.passes (execute h (some op)) s := by
  apply Trades.first (.here .charge)
  intro _ t ht h₀
  have hlength : t.frame.stack.items.length = s.frame.stack.items.length := h₀.length_eq
  refine Opcode.run_trades op ?_ ?_ fun hsolid => hloose fun hs => hsolid ?_
  · rw [hlength]
    exact hE
  · rw [hlength]
    exact hF
  · exact solid_of_pays .charge ht hs

/-- What is known of a step, if the frame had the operands of the opcode or not. -/
theorem settle_trades {x : Exec σ Unit} {m n : Nat} {d : Option Nat}
    (hx : Trades Machine.frame E F m n d x s) :
    (∀ t, s.settle x = .ok t → x s = .ok () t ∧ s.frame.Trades m n d t.frame ∨
      t.frame.status.isError = true ∨ E ∧ t.frame.status ≠ .running) ∧
    ∀ e, s.settle x = .error e → F := by
  unfold Trades at hx
  simp only [settle]
  cases hr : x s with
  | ok _ u =>
    refine ⟨fun t ht => ?_, fun e he => by cases he⟩
    cases ht
    exact .inl ⟨rfl, hx.ok hr⟩
  | error e u =>
    have hfair := hx.error hr
    cases e with
    | status e =>
      refine ⟨fun t ht => ?_, fun e he => by cases he⟩
      cases ht
      exact .inr hfair
    | fault e =>
      refine ⟨fun t ht => ?_, fun _ _ => hfair⟩
      cases ht

-- Only a `log` reads memory before it takes all its operands, so it may have no answer without them.
theorem step_trades (hop : op.byte = s.frame.nextByte) :
    (∀ t, s.step h = .ok t → execute h (some op) s.passed = .ok () t ∧
        s.passed.frame.Trades op.info.inputs op.info.outputs op.passes t.frame ∨
      t.frame.status.isError = true ∨
        op.info.inputs ≤ s.frame.stack.length ∧ t.frame.status ≠ .running) ∧
    ∀ e, s.step h = .error e → op.info.inputs ≤ s.frame.stack.length ∨ ¬s.frame.Solid := by
  have hloose : ¬s.passed.frame.Solid → ¬s.frame.Solid :=
    fun hpassed hs => hpassed ⟨hs.memory, hs.output⟩
  rw [step_eq, Opcode.ofByte?_eq_some_iff.mpr hop]
  exact settle_trades (execute_trades op id .inl fun hpassed => .inr (hloose hpassed))

/-- Once the opcode is paid for, the step is its instruction. -/
theorem step_charged (hbyte : op.byte = s.frame.nextByte)
    (hgas : op.info.gas ≤ s.frame.gas.remaining) :
    s.step h = (⟨s.frame.charged op, s.world⟩ : Machine σ).settle (op.run h) := by
  have hcharge : (here (Local.charge op.info.gas) : Exec σ Unit) s.passed =
      .ok () ⟨s.frame.charged op, s.world⟩ := by
    have hpassed : s.passed.frame.gas = s.frame.gas := rfl
    simp only [here, Local.charge, Gas.charge?, hpassed, if_pos hgas]
    rfl
  rw [step_eq, Opcode.ofByte?_eq_some_iff.mpr hbyte]
  exact settle_congr (Exec.bind_ok hcharge)

theorem execute_charged {t : Machine σ} (ht : execute h (some op) s.passed = .ok () t) :
    op.run h ⟨s.frame.charged op, s.world⟩ = .ok () t := by
  obtain ⟨_, ⟨f, w⟩, hcharge, hrun⟩ := Exec.bind_eq_ok ht
  obtain ⟨hframe, rfl⟩ := Exec.here_eq_ok hcharge
  have hpaid : Local.charge op.info.gas s.passed.frame = .ok () f := hframe
  simp only [Local.charge] at hpaid
  split at hpaid
  · rename_i gas hgas
    obtain ⟨-, rfl⟩ := Gas.charge?_eq_some hgas
    obtain ⟨-, rfl⟩ := EStateM.Result.ok.inj hpaid
    exact hrun
  · cases hpaid

theorem step_unpaid (hbyte : op.byte = s.frame.nextByte)
    (hgas : ¬op.info.gas ≤ s.frame.gas.remaining) :
    s.step h = .ok ⟨{ s.passed.frame with status := .outOfGas }, s.world⟩ := by
  have hcharge : (here (Local.charge op.info.gas) : Exec σ Unit) s.passed =
      .error (.status .outOfGas) s.passed := by
    have hpassed : s.passed.frame.gas = s.frame.gas := rfl
    simp only [here, Local.charge, Gas.charge?, hpassed, if_neg hgas]
  have hexecute : execute h (some op) s.passed = .error (.status .outOfGas) s.passed :=
    Exec.bind_error hcharge
  rw [step_eq, Opcode.ofByte?_eq_some_iff.mpr hbyte, settle, hexecute]
  rfl

theorem execute_lands (ht : execute h (some op) s.passed = .ok () t) (hjump : op.passes = none) :
    s.passed.frame.Lands (op.target? s.frame.stack) t.frame :=
  Opcode.run_lands (execute_charged ht) hjump

/-- A step after which the frame runs on has taken the operands and put the results. -/
theorem step_performs (hop : op.byte = s.frame.nextByte)
    (hfits : s.frame.stack.length ≤ Stack.limit) (ht : s.step h = .ok t)
    (hruns : t.frame.status = .running) : s.frame.Performs op t.frame := by
  obtain ⟨hexecute, htrades⟩ | herror | ⟨-, hended⟩ := (step_trades hop).1 t ht
  · have hlength := htrades.length
    have hstack : s.passed.frame.stack = s.frame.stack := rfl
    refine ⟨htrades.enough, ?_, htrades.within hfits, htrades.below, ?_⟩
    · simp only [Stack.length, Opcode.Info.growth, hstack] at hlength ⊢
      omega
    · obtain ⟨hjump, himmediate⟩ | ⟨hpasses, hnone⟩ := op.passes_eq
      · rw [(execute_lands hexecute hjump).1, himmediate]
        rfl
      · rw [hnone, Option.getD_none, htrades.pc _ hpasses]
        rfl
  · rw [hruns] at herror
    cases herror
  · exact absurd hruns hended

end Machine

/-- The stack and the position after a step are as the table of opcodes says. A step of a frame with at
most as many words on the stack as fit, after which it runs on, has found the operands of its opcode,
taken them off the stack and put the results there, and left what lies below them; it has passed the
opcode and its immediate bytes, or jumped. Without the operands the step ends with an error, and only
where memory is not as long as the meter says it may have no answer. An opcode that ends the frame leaves
none running, and a byte without an opcode ends the frame and changes neither stack nor memory nor gas. -/
theorem Machine.step_keeps_to_table (h : Host σ) (s : Machine σ)
    (hfits : s.frame.stack.length ≤ Stack.limit) :
    (∀ op : Opcode, op.byte = s.frame.nextByte →
      (∀ t, s.step h = .ok t → t.frame.status = .running → s.frame.Performs op t.frame) ∧
      (s.frame.stack.length < op.info.inputs →
        (∃ t, s.step h = .ok t ∧ t.frame.status.isError = true) ∨
          ¬s.frame.Solid ∧ ∃ e, s.step h = .error e) ∧
      (op.info.ends = true → ∀ t, s.step h = .ok t → t.frame.status ≠ .running)) ∧
    ((∀ op : Opcode, op.byte ≠ s.frame.nextByte) →
      ∃ t, s.step h = .ok t ∧ t.frame.status = .undefinedOpcode ∧
        t.frame.stack = s.frame.stack ∧ t.frame.memory = s.frame.memory ∧
        t.frame.gas = s.frame.gas) := by
  refine ⟨fun op hop => ⟨fun t ht hruns => step_performs hop hfits ht hruns, fun hfew => ?_,
    fun hends t ht hruns => ?_⟩, fun hnone => ?_⟩
  · cases hs : s.step h with
    | ok t =>
      obtain ⟨-, htrades⟩ | herror | ⟨henough, -⟩ := (step_trades hop).1 t hs
      · exact absurd htrades.enough (Nat.not_le.mpr hfew)
      · exact .inl ⟨t, rfl, herror⟩
      · exact absurd henough (Nat.not_le.mpr hfew)
    | error e =>
      have hloose := (step_trades hop).2 e hs
      exact .inr ⟨hloose.resolve_left (Nat.not_le.mpr hfew), e, rfl⟩
  · obtain ⟨hexecute, -⟩ | herror | ⟨-, hended⟩ := (step_trades hop).1 t ht
    · exact Halts.bind (fun _ => Opcode.run_halts hends) _ _ _ hexecute
    · rw [hruns] at herror
      cases herror
    · exact hended hruns
  · have hundecoded : Opcode.ofByte? s.frame.nextByte = none := by
      cases hop : Opcode.ofByte? s.frame.nextByte with
      | none => rfl
      | some op => exact absurd (Opcode.ofByte?_eq_some_iff.mp hop) (hnone op)
    rw [step_eq, hundecoded]
    exact ⟨_, rfl, rfl, rfl, rfl, rfl⟩

namespace Machine

/-- The first step puts a word on the stack, and a word is not stored before there are two. -/
theorem step_keeps_to_table_storing :
    (∃ t : Machine Unit, step .mute ⟨.start storing 100, ()⟩ = .ok t ∧
      (Frame.start storing 100).Performs (.push 0) t.frame ∧ t.frame.pc = 2) ∧
    ∃ t : Machine Unit, step .mute ⟨{ Frame.start storing 100 with pc := 4 }, ()⟩ = .ok t ∧
      t.frame.status.isError = true := by
  have hpushed : (step .mute ⟨.start storing 100, ()⟩).map (fun t => (t.frame.status, t.frame.pc)) =
      .ok (.running, 2) := by
    decide +kernel
  obtain ⟨t, ht, hfound⟩ := Except.map_eq_ok hpushed
  obtain ⟨hruns, hpc⟩ := Prod.mk.inj hfound
  have hfirst := step_keeps_to_table .mute ⟨.start storing 100, ()⟩ (by decide)
  obtain ⟨hperforms, -, -⟩ := hfirst.1 (.push 0) (by decide)
  have hstore := step_keeps_to_table .mute ⟨{ Frame.start storing 100 with pc := 4 }, ()⟩ (by decide)
  obtain ⟨-, hfew, -⟩ := hstore.1 .memStore (by decide)
  have hsolid := Frame.start_solid storing 100
  refine ⟨⟨t, ht, hperforms t ht hruns, hpc⟩, (hfew (by decide)).resolve_right fun hloose => ?_⟩
  exact hloose.1 ⟨hsolid.memory, hsolid.output⟩

end Machine

end MeteredVM
