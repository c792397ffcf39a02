import MeteredVM.Instruction.Dispatch

/-!
Running a frame. Each step that goes on leaves less gas, so a frame ends within one step more
than the gas that it has.
-/

namespace MeteredVM.Machine

variable {σ : Type}

/-- Charges for an opcode and runs its instruction. A byte that is no opcode ends the frame without
a charge. -/
def execute (h : Host σ) : Option Opcode → Exec σ Unit
  | some op => do
    Local.charge op.info.gas
    op.run h
  | none => Local.halt .undefinedOpcode

def fetch (h : Host σ) : Exec σ Unit := do
  let byte := (← (get : Local Frame)).nextByte
  Exec.here (modify fun f => { f with pc := f.pc + 1 })
  execute h (Opcode.ofByte? byte)

def step (h : Host σ) (m : Machine σ) : Except Fault (Machine σ) := m.settle (fetch h)

def runFor (h : Host σ) : Nat → Machine σ → Except Fault (Machine σ)
  | 0, m => .ok m
  | n + 1, m =>
    if m.frame.status = .running then do runFor h n (← m.step h) else .ok m

def punish (m : Machine σ) : Machine σ :=
  if m.frame.status.isError then { m with frame := { m.frame with gas := m.frame.gas.exhaust } }
  else m

def run (h : Host σ) (m : Machine σ) : Except Fault (Machine σ) :=
  (m.runFor h (m.frame.gas.remaining + 1)).map punish

end MeteredVM.Machine
