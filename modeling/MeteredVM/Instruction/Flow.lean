import MeteredVM.Frame.Basic

namespace MeteredVM.Instruction

open Local

def jumpTo (target : Word) : Local Unit := do
  match target.amount? with
  | some pos =>
    ensure ((← get).invocation.code.isDestination pos) .invalidJump
    modify fun f => { f with pc := pos }
  | none => halt .invalidJump

def jump : Local Unit := do
  jumpTo (← pop1)

def jumpIf : Local Unit := do
  let (target, condition) ← pop2
  if condition ≠ 0 then jumpTo target

def position : Local Unit := do
  let pos ← checked (Amount.sub (← get).pc 1)
  push (.ofNat pos)

def finish (s : Status) : Local Unit := do
  let (offset, len) ← pop2
  let len ← amount len
  if len = 0 then modify fun f => { f with output := .empty }
  else
    let start ← amount offset
    grow start len
    modify fun f => { f with output := ⟨start, start + len⟩ }
  halt s

def revert : Local Unit := do
  since .byzantium
  finish .reverted

end MeteredVM.Instruction
