import MeteredVM.Arithmetic
import MeteredVM.Frame.Basic
import MeteredVM.Keccak

namespace MeteredVM.Instruction

open Local

def unary (f : Word → Word) : Local Unit := do
  setTop (f (← top1))

def binary (f : Word → Word → Word) : Local Unit := do
  let (x, y) ← top2
  setTop (f x y)

def ternary (f : Word → Word → Word → Word) : Local Unit := do
  let (x, y, z) ← top3
  setTop (f x y z)

def test (f : Word → Word → Bool) : Local Unit := binary fun x y => .ofBool (f x y)

def binarySince (fork : Hardfork) (f : Word → Word → Word) : Local Unit := do
  since fork
  binary f

/-- Raises to a power and pays for the significant bytes of the exponent. -/
def exp : Local Unit := do
  let (base, exponent) ← top2
  pay (Price.exp (← rules) exponent)
  setTop (base.power exponent)

def keccak : Local Unit := do
  let (offset, len) ← top2
  let len ← amount len
  pay (Price.hash len)
  if len = 0 then setTop emptyCodeHash
  else setTop (keccak256 (← copyOut offset len))

def discard : Local Unit := do
  let _ ← pop1

def pushZero : Local Unit := do
  having .eip3855
  push 0

def pushBytes (n : Nat) : Local Unit := do
  let f ← get
  let data ← checked (f.invocation.code.slice f.pc n)
  onStack (·.pushBytes data)
  modify fun g => { g with pc := f.pc + n }

def memLoad : Local Unit := do
  let offset ← amount (← top1)
  grow offset 32
  setTop (← checked ((← get).memory.word offset))

def memStore : Local Unit := do
  let (offset, value) ← pop2
  let offset ← amount offset
  grow offset 32
  onMemory (·.setWord offset value)

def memStoreByte : Local Unit := do
  let (offset, value) ← pop2
  let offset ← amount offset
  grow offset 1
  onMemory (·.setByte offset (UInt8.ofNat value.toNat))

end MeteredVM.Instruction
