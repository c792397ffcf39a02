import MeteredVM.Proofs.Code
import MeteredVM.Proofs.Frame.Request
import MeteredVM.Frame.Run

namespace MeteredVM

open Exec Instruction

variable {σ : Type}

theorem Exec.bind_ok {α β : Type} {x : Exec σ α} {k : α → Exec σ β} {s t : Machine σ} {a : α}
    (h : x s = .ok a t) : (x >>= k) s = k a t := by
  simp only [Bind.bind, EStateM.bind, h]

theorem Exec.bind_error {α β : Type} {x : Exec σ α} {k : α → Exec σ β} {s t : Machine σ}
    {e : Ending} (h : x s = .error e t) : (x >>= k) s = .error e t := by
  simp only [Bind.bind, EStateM.bind, h]

namespace Opcode

def request? (h : Host σ) : Opcode → Option (Exec σ Request)
  | create => some (here (Instruction.create false))
  | call => some (Instruction.call h)
  | callCode => some (Instruction.callCode h)
  | delegateCall => some (Instruction.delegateCall h)
  | create2 => some (here (Instruction.create true))
  | staticCall => some (Instruction.staticCall h)
  | _ => none

section Pays

variable {h : Host σ} {P : Prop} {s : Machine σ} {op : Opcode}

/-- An opcode that opens no frame costs something, by the table or by its own price, or ends the
frame. -/
theorem run_pays (hop : op.request? h = none) (hpc : 0 < s.frame.pc)
    (hdata : op.isPush → s.frame.pc ≤ s.frame.invocation.code.length) :
    Exec.Pays h P (1 - op.info.gas) (op.run h) s fun _ _ => True := by
  cases op with
  | stop | invalid => exact .halt rfl
  | add | mul | sub | div | signedDiv | mod | signedMod | signExtend | lt | gt | signedLt
  | signedGt | eq | bitAnd | bitOr | bitXor | byteAt => exact .alone (binary_pays _)
  | addMod | mulMod => exact .alone (ternary_pays _)
  | isZero | bitNot => exact .alone (unary_pays _)
  | shiftLeft | shiftRight | signedShiftRight => exact .alone (binarySince_pays _ _)
  | exp => exact .alone exp_pays
  | keccak => exact .alone keccak_pays
  | address | caller | callValue | callDataSize | codeSize | memSize | gas =>
    exact .alone (observe_pays _)
  | origin | gasPrice | coinbase | timestamp | number | gasLimit => exact .alone .push
  | difficulty => exact .alone (difficulty_pays _)
  | chainId | baseFee => exact .alone (observeHaving_pays _ _)
  | callDataLoad => exact .alone callDataLoad_pays
  | callDataCopy | codeCopy => exact .alone (copyLow_pays _)
  | returnDataSize => exact .alone returnDataSize_pays
  | returnDataCopy => exact .alone returnDataCopy_pays
  | balance => exact balance_pays
  | extCodeSize => exact codeSize_pays
  | extCodeCopy => exact extCodeCopy_pays
  | extCodeHash => exact codeHash_pays
  | blockHash => exact blockHash_pays
  | selfBalance => exact selfBalance_pays
  | pop => exact .alone discard_pays
  | memLoad => exact .alone memLoad_pays
  | memStore => exact .alone memStore_pays
  | memStoreByte => exact .alone memStoreByte_pays
  | slotLoad => exact slotLoad_pays
  | slotStore => exact slotStore_pays
  | jump => exact .alone jump_pays
  | jumpIf => exact .alone jumpIf_pays
  | pc => exact .alone (position_pays hpc)
  | jumpDest => exact .pure trivial
  | pushZero => exact .alone pushZero_pays
  | push n => exact .alone (pushBytes_pays n.isLt (hdata rfl))
  | dup n => exact .alone (.onStack fun _ he => Stack.dup_error he)
  | swap n => exact .alone (.onStack fun _ he => Stack.swap_error he)
  | log n => exact log_pays _
  | ret => exact .alone (finish_pays rfl)
  | revert => exact .alone revert_pays
  | selfDestruct => exact selfDestruct_pays
  | create | call | callCode | delegateCall | create2 | staticCall => cases hop

theorem request?_pays {x : Exec σ Request} (hop : op.request? h = some x) :
    Exec.Pays h P 1 x s fun r t => s.frame.Asks P r t.frame := by
  cases op with
  | create =>
    cases hop
    exact (Exec.Pays.here (create_pays _)).imp (by decide) fun _ _ h => h.1
  | create2 =>
    cases hop
    exact (Exec.Pays.here (create_pays _)).imp (by decide) fun _ _ h => h.1
  | call =>
    cases hop
    exact call_pays
  | callCode =>
    cases hop
    exact callCode_pays
  | delegateCall =>
    cases hop
    exact delegateCall_pays
  | staticCall =>
    cases hop
    exact staticCall_pays
  | _ => cases hop

theorem asks_pays {x : Exec σ Request} (hop : op.request? h = some x) :
    Exec.Pays h P 1 (do
      here (Local.charge op.info.gas)
      x) s fun r t => s.frame.Asks P r t.frame := by
  apply Exec.Pays.first (.spend (Nat.zero_le _))
  rintro _ t ht -
  refine (request?_pays hop).imp (Nat.le_refl _) fun r u hru => ⟨?_, ?_, hru.fits⟩
  · rw [← ht.frame.invocation]
    exact hru.permitted
  · exact Nat.le_trans hru.paid ht.frame.paid

theorem run_eq_nest {x : Exec σ Request} (hop : op.request? h = some x) :
    op.run h = Instruction.nest h x := by
  cases op <;> cases hop <;> rfl

end Pays

end Opcode

theorem Code.byteAt_of_length_le {c : Code} {pos : Nat} (h : c.length ≤ pos) : c.byteAt pos = 0 :=
  (c.at0_padded pos).trans (dif_neg (Nat.not_lt_of_le h))

theorem Frame.pc_lt_of_isPush {f : Frame} {op : Opcode} (hop : Opcode.ofByte? f.nextByte = some op)
    (hpush : op.isPush = true) : f.pc < f.invocation.code.length := by
  apply Nat.lt_of_not_le
  intro hle
  have hzero : f.nextByte = 0 := Code.byteAt_of_length_le hle
  have hstop : Opcode.ofByte? 0 = some .stop := by
    simp only [Opcode.ofByte?, Opcode.decoded, Array.getElem?_ofFn]
    rfl
  rw [hzero, hstop] at hop
  cases hop
  cases hpush

namespace Machine

def passed (s : Machine σ) : Machine σ :=
  { s with frame := { s.frame with pc := s.frame.pc + 1 } }

def Opens (h : Host σ) (op? : Option Opcode) (s : Machine σ) (r : Request) (t : Machine σ) : Prop :=
  ∃ op x, op? = some op ∧ op.request? h = some x ∧
    (do
      here (Local.charge op.info.gas)
      x : Exec σ Request) s = .ok r t

def Asking (h : Host σ) (s : Machine σ) : Request → Machine σ → Prop :=
  s.passed.Opens h (Opcode.ofByte? s.frame.nextByte)

theorem Asking.pays {h : Host σ} {s t : Machine σ} {r : Request} (hask : s.Asking h r t) :
    s.Follows h False 1 t ∧ s.frame.Asks False r t.frame := by
  obtain ⟨op, x, -, hop, hx⟩ := hask
  have hpays : Exec.Pays h False 1 _ s.passed _ := Opcode.asks_pays hop
  unfold Exec.Pays at hpays
  replace hpays := hpays False.elim
  rw [hx] at hpays
  obtain ⟨⟨hframe, hworld⟩, hpermitted, hpaid, -⟩ := hpays
  exact ⟨⟨⟨hframe.invocation, hframe.status, hframe.limit, hframe.paid, False.elim⟩, hworld⟩, hpermitted, hpaid,
    False.elim⟩

/-- Until a frame asks for a nested frame it has only used its host. -/
theorem Asking.used {h : Host σ} {s t : Machine σ} {r : Request} (hask : s.Asking h r t) :
    h.Acts s.frame.invocation s.world t.world :=
  hask.pays.1.world

theorem Asking.permitted {h : Host σ} {s t : Machine σ} {r : Request} (hask : s.Asking h r t) :
    s.frame.invocation.MayAsk r :=
  hask.pays.2.permitted

theorem Asking.paid {h : Host σ} {s t : Machine σ} {r : Request} (hask : s.Asking h r t) :
    r.gasLimit + t.frame.gas.remaining < s.frame.gas.remaining :=
  hask.pays.2.spent

theorem Asking.cost_le {h : Host σ} {s t : Machine σ} {r : Request} (hask : s.Asking h r t) :
    r.cost ≤ s.frame.gas.remaining := by
  have hpaid := hask.pays.2.paid
  omega

inductive Steps (h : Host σ) (P : Prop) (A : Request → Machine σ → Prop) (s : Machine σ) :
    Except Fault (Machine σ) → Prop
  /-- The frame goes on, or could. -/
  | goes {t : Machine σ} (follows : s.Follows h P 1 t) : Steps h P A s (.ok t)
  /-- The frame has ended. -/
  | ends {t : Machine σ} (follows : s.Follows h P 0 t) (ended : t.frame.status ≠ .running) :
      Steps h P A s (.ok t)
  /-- The host runs a nested frame, and the frame goes on with the reply. -/
  | asks {r : Request} {t : Machine σ} (asking : A r t) (follows : s.Follows h P 1 t)
      (asked : s.frame.Asks P r t.frame) : Steps h P A s (t.settle (serve h r))
  | outOfRange (loose : ¬P) : Steps h P A s (.error .outOfRange)
  | refund {e : Fault} (fails : h.RefundFails s.frame.invocation e) : Steps h P A s (.error e)

variable {h : Host σ} {P : Prop} {A : Request → Machine σ → Prop} {s t : Machine σ}

theorem passed_follows (hs : P → s.frame.Solid) : s.Follows h P 0 s.passed :=
  ⟨.of_same hs rfl rfl rfl rfl rfl, .refl⟩

theorem Steps.of_follows {r : Except Fault (Machine σ)} (hst : s.Follows h P 0 t)
    (ht : t.Steps h P A r) : s.Steps h P A r := by
  cases ht with
  | goes follows => exact .goes ((hst.trans follows).mono (by omega))
  | ends follows ended => exact .ends ((hst.trans follows).mono (by omega)) ended
  | asks asking follows asked =>
    refine .asks asking ((hst.trans follows).mono (by omega)) ⟨?_, ?_, asked.fits⟩
    · rw [← hst.frame.invocation]
      exact asked.permitted
    · exact Nat.le_trans asked.paid hst.frame.paid
  | outOfRange loose => exact .outOfRange loose
  | refund fails =>
    rw [hst.frame.invocation] at fails
    exact .refund fails

/-- A step that is not carried to its end ends the frame or has no answer. -/
theorem Steps.of_error {α : Type} {n : Nat} {x : Exec σ α} {Q : α → Machine σ → Prop} {e : Ending}
    (hs : P → s.frame.Solid) (hx : Exec.Pays h P n x s Q) (he : x s = .error e t) {y : Exec σ Unit}
    (hy : y s = .error e t) : s.Steps h P A (s.settle y) := by
  unfold Exec.Pays at hx
  replace hx := hx hs
  rw [he] at hx
  simp only [settle, hy]
  cases e with
  | status e => exact .ends ⟨hx.2.frame.withStatus hx.1, hx.2.world⟩ (Status.ne_running_of_endsFrame hx.1)
  | fault e =>
    obtain ⟨rfl, loose⟩ | fails := hx
    · exact .outOfRange loose
    · exact .refund fails

theorem Steps.of_pays {x : Exec σ Unit} (hs : P → s.frame.Solid)
    (hx : Exec.Pays h P 1 x s fun _ _ => True) : s.Steps h P A (s.settle x) := by
  cases he : x s with
  | ok a t =>
    unfold Exec.Pays at hx
    replace hx := hx hs
    rw [he] at hx
    simp only [settle, he]
    exact .goes hx.1
  | error e t => exact .of_error hs hx he he

theorem Steps.of_asks {x : Exec σ Request} (hs : P → s.frame.Solid)
    (hx : Exec.Pays h P 1 x s fun r t => s.frame.Asks P r t.frame)
    (hA : ∀ r t, x s = .ok r t → A r t) : s.Steps h P A (s.settle (Instruction.nest h x)) := by
  cases he : x s with
  | ok r t =>
    unfold Exec.Pays at hx
    replace hx := hx hs
    rw [he] at hx
    simp only [settle, Instruction.nest, Bind.bind, EStateM.bind, he]
    exact .asks (hA r t he) hx.1 hx.2
  | error e t =>
    apply Steps.of_error hs hx he
    simp only [Instruction.nest, Bind.bind, EStateM.bind, he]

theorem settle_congr {x y : Exec σ Unit} (h : x s = y t) : s.settle x = t.settle y := by
  simp only [settle, h]

theorem fetch_eq (h : Host σ) (s : Machine σ) :
    fetch h s = execute h (Opcode.ofByte? s.frame.nextByte) s.passed := by
  have hget : (liftM (get : Local Frame) : Exec σ Frame) s = .ok s.frame s := rfl
  have hpass : (here (modify fun f => { f with pc := f.pc + 1 }) : Exec σ Unit) s =
      .ok () s.passed := rfl
  unfold fetch
  rw [Exec.bind_ok hget]
  exact Exec.bind_ok hpass

-- Congruence keeps the table of opcodes from being evaluated here.
theorem step_eq (h : Host σ) (s : Machine σ) :
    s.step h = s.passed.settle (execute h (Opcode.ofByte? s.frame.nextByte)) :=
  settle_congr (fetch_eq h s)

theorem execute_steps (hs : P → s.frame.Solid) (hpc : 0 < s.frame.pc) {op? : Option Opcode}
    (hdata : ∀ op, op? = some op → op.isPush = true →
      s.frame.pc ≤ s.frame.invocation.code.length) :
    s.Steps h P (s.Opens h op?) (s.settle (execute h op?)) := by
  cases op? with
  | none => exact .of_pays hs (.halt rfl)
  | some op =>
    cases hr : op.request? h with
    | none =>
      have hrun : Exec.Pays h P (op.info.gas + (1 - op.info.gas)) (do
          here (Local.charge op.info.gas)
          op.run h) s fun _ _ => True := by
        apply Exec.Pays.bind (.here .charge)
        rintro _ t ht ⟨⟨-, hsame⟩, -⟩
        refine Opcode.run_pays hr ?_ fun hpush => ?_
        · rw [hsame]
          exact hpc
        · rw [hsame, ht.frame.invocation]
          exact hdata op rfl hpush
      exact .of_pays hs (hrun.imp (by omega) fun _ _ h => h)
    | some x =>
      -- Asking begins with the price of the opcode, so that belongs to the request.
      have hnest : (do
          here (Local.charge op.info.gas)
          op.run h) = Instruction.nest h (do
          here (Local.charge op.info.gas)
          x) := by
        rw [Opcode.run_eq_nest hr]
        simp only [Instruction.nest, bind_assoc]
      have hsteps := Steps.of_asks (A := s.Opens h (some op)) hs (Opcode.asks_pays hr) fun r t he =>
        ⟨op, x, rfl, hr, he⟩
      rw [← hnest] at hsteps
      exact hsteps

theorem step_steps (hs : P → s.frame.Solid) : s.Steps h P (s.Asking h) (s.step h) := by
  have hpassed : s.Follows h P 0 s.passed := passed_follows hs
  rw [step_eq]
  refine .of_follows hpassed (execute_steps ?_ (Nat.succ_pos _) ?_)
  · exact fun hP => (hpassed.frame.solid hP).1
  · exact fun op hop hpush => Frame.pc_lt_of_isPush hop hpush

end Machine

end MeteredVM
