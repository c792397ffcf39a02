import MeteredVM.Environment
import MeteredVM.Frame.Basic

namespace MeteredVM.Instruction

open Local

def observe (f : Frame → Word) : Local Unit := do push (f (← get))

/-- Pushes the 32 bytes of input from a position on, with zeros past the end. -/
def callDataLoad : Local Unit := do
  let offset ← top1
  setTop (((← get).invocation.input.window offset.clamp 32).toWord)

/-- Copies data to memory, with zeros past the end. -/
def copyData (price : Nat → Option Nat) (memOffset dataOffset len : Word) (data : Bytes) :
    Local Unit := do
  let len ← amount len
  pay (price len)
  if len ≠ 0 then
    let offset ← amount memOffset
    grow offset len
    onMemory (·.setData offset dataOffset.clamp len data)

def copyLow (data : Frame → Bytes) : Local Unit := do
  let (memOffset, dataOffset, len) ← pop3
  copyData Price.copyLow memOffset dataOffset len (data (← get))

def returnDataSize : Local Unit := do
  since .byzantium
  observe fun f => .ofNat f.returnData.size

/-- Copies output of the latest nested frame to memory. It has no bytes past its end. -/
def returnDataCopy : Local Unit := do
  since .byzantium
  let (memOffset, dataOffset, len) ← pop3
  let len ← amount len
  pay (Price.copyLow len)
  let data := (← get).returnData
  let start := dataOffset.clamp
  ensure (start + len ≤ data.size) .outOfOffset
  if len ≠ 0 then
    let offset ← amount memOffset
    grow offset len
    onMemory (·.set offset (data.extract start (start + len)))

def difficulty (block : Block) : Local Unit := do
  match block.randomness with
  | some randomness => push (if (← rules).since .merge then randomness else block.difficulty)
  | none => push block.difficulty

def observeHaving (e : Eip) (w : Word) : Local Unit := do
  having e
  push w

end MeteredVM.Instruction
