import MeteredVM.Code
import MeteredVM.Gas.Meter
import MeteredVM.Memory
import MeteredVM.Stack

namespace MeteredVM

structure Invocation where
  input : Bytes := ByteArray.empty
  code : Code
  /-- The account whose storage and balance the code acts on. -/
  address : Address
  caller : Address
  value : Word
  isStatic : Bool := false
  rules : Rules

structure Span where
  start : Nat
  stop : Nat
  deriving DecidableEq, Repr, Inhabited

namespace Span

def empty : Span := ⟨0, 0⟩

def length (s : Span) : Nat := s.stop - s.start

end Span

structure Frame where
  invocation : Invocation
  pc : Nat
  status : Status
  gas : Gas
  memory : Memory
  stack : Stack
  /-- The output of the latest nested frame. -/
  returnData : Bytes
  /-- Where the output lies in memory. -/
  output : Span

inductive Ending where
  | status (s : Status)
  | fault (f : Fault)
  deriving DecidableEq, Repr

namespace Frame

def start (invocation : Invocation) (gasLimit : Nat) : Frame where
  invocation := invocation
  pc := 0
  status := .running
  gas := .ofLimit gasLimit
  memory := .empty
  stack := .empty
  returnData := ByteArray.empty
  output := .empty

def rules (f : Frame) : Rules := f.invocation.rules

def outputData (f : Frame) : Except Fault Bytes :=
  if f.output.length = 0 then .ok ByteArray.empty else f.memory.slice f.output.start f.output.length

def nextByte (f : Frame) : UInt8 := f.invocation.code.byteAt f.pc

end Frame

abbrev Local (α : Type) := EStateM Ending Frame α

namespace Local

def halt {α : Type} (s : Status) : Local α := throw (.status s)

def checked {α : Type} (x : Except Fault α) : Local α := fun f =>
  match x with
  | .ok a => .ok a f
  | .error fault => .error (.fault fault) f

def ensure (condition : Bool) (s : Status) : Local Unit := if condition then pure () else halt s

def rules : Local Rules := return (← get).rules

def since (fork : Hardfork) : Local Unit := do ensure ((← rules).since fork) .notActivated

def having (e : Eip) : Local Unit := do ensure ((← rules).has e) .notActivated

def mayWrite : Local Unit := do ensure (!(← get).invocation.isStatic) .writeInStaticCall

def charge (cost : Nat) : Local Unit := fun f =>
  match f.gas.charge? cost with
  | some gas => .ok () { f with gas := gas }
  | none => .error (.status .outOfGas) f

def pay (price : Option Nat) : Local Unit :=
  match price with
  | some cost => charge cost
  | none => halt .gasOverflow

/-- Makes `len` bytes of memory from `offset` on addressable and pays for it. -/
def grow (offset len : Nat) : Local Unit := fun f =>
  match f.gas.payMemory offset len with
  | .ok (none, gas) => .ok () { f with gas := gas }
  | .ok (some size, gas) => .ok () { f with gas := gas, memory := f.memory.resize size }
  | .error s => .error (.status s) f

def amount (w : Word) : Local Nat :=
  match w.amount? with
  | some n => pure n
  | none => halt .gasOverflow

def pop (n : Nat) : Local (Fin n → Word) := fun f =>
  match f.stack.popN n with
  | .ok (args, stack) => .ok args { f with stack := stack }
  | .error s => .error (.status s) f

/-- Takes `n` operands off the stack and reads the one below them, which stays until a result
takes its place. -/
def popTop (n : Nat) : Local ((Fin n → Word) × Word) := fun f =>
  match f.stack.popNTop n with
  | .ok (args, top, stack) => .ok (args, top) { f with stack := stack }
  | .error s => .error (.status s) f

def pop1 : Local Word := do
  let args ← pop 1
  return args 0

def pop2 : Local (Word × Word) := do
  let args ← pop 2
  return (args 0, args 1)

def pop3 : Local (Word × Word × Word) := do
  let args ← pop 3
  return (args 0, args 1, args 2)

def pop4 : Local (Word × Word × Word × Word) := do
  let args ← pop 4
  return (args 0, args 1, args 2, args 3)

def top1 : Local Word := do
  let (_, x) ← popTop 0
  return x

def top2 : Local (Word × Word) := do
  let (args, y) ← popTop 1
  return (args 0, y)

def top3 : Local (Word × Word × Word) := do
  let (args, z) ← popTop 2
  return (args 0, args 1, z)

def onStack (change : Stack → Except Status Stack) : Local Unit := fun f =>
  match change f.stack with
  | .ok stack => .ok () { f with stack := stack }
  | .error s => .error (.status s) f

def push (w : Word) : Local Unit := onStack (·.push w)

def setTop (w : Word) : Local Unit := onStack (·.set 0 w)

def slice (offset len : Nat) : Local Bytes := do checked ((← get).memory.slice offset len)

def copyOut (offset : Word) (len : Nat) : Local Bytes := do
  let offset ← amount offset
  grow offset len
  slice offset len

def onMemory (change : Memory → Except Fault Memory) : Local Unit := fun f =>
  match change f.memory with
  | .ok memory => .ok () { f with memory := memory }
  | .error fault => .error (.fault fault) f

end Local

end MeteredVM
