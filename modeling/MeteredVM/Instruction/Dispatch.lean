import MeteredVM.Instruction.Call
import MeteredVM.Instruction.Compute
import MeteredVM.Instruction.Data
import MeteredVM.Instruction.Flow
import MeteredVM.Instruction.State

namespace MeteredVM.Opcode

open Instruction Exec

variable {σ : Type}

def run (h : Host σ) : Opcode → Exec σ Unit
  | stop => here (Local.halt .stopped)
  | add => here (binary (· + ·))
  | mul => here (binary (· * ·))
  | sub => here (binary (· - ·))
  | div => here (binary Word.div)
  | signedDiv => here (binary Word.signedDiv)
  | mod => here (binary Word.mod)
  | signedMod => here (binary Word.signedMod)
  | addMod => here (ternary Word.addMod)
  | mulMod => here (ternary Word.mulMod)
  | exp => here Instruction.exp
  | signExtend => here (binary Word.signExtend)
  | lt => here (test fun x y => x < y)
  | gt => here (test fun x y => y < x)
  | signedLt => here (test fun x y => x.signedCompare y == .lt)
  | signedGt => here (test fun x y => x.signedCompare y == .gt)
  | eq => here (test fun x y => x == y)
  | isZero => here (unary fun x => .ofBool (x == 0))
  | bitAnd => here (binary (· &&& ·))
  | bitOr => here (binary (· ||| ·))
  | bitXor => here (binary (· ^^^ ·))
  | bitNot => here (unary (~~~ ·))
  | byteAt => here (binary Word.byteAt)
  | shiftLeft => here (binarySince .constantinople Word.shiftLeft)
  | shiftRight => here (binarySince .constantinople Word.shiftRight)
  | signedShiftRight => here (binarySince .constantinople Word.signedShiftRight)
  | keccak => here Instruction.keccak
  | address => here (observe fun f => .ofAddress f.invocation.address)
  | balance => inspect h.balance Price.balance id
  | origin => here (Local.push (.ofAddress h.environment.tx.origin))
  | caller => here (observe fun f => .ofAddress f.invocation.caller)
  | callValue => here (observe fun f => f.invocation.value)
  | callDataLoad => here Instruction.callDataLoad
  | callDataSize => here (observe fun f => .ofNat f.invocation.input.size)
  | callDataCopy => here (copyLow fun f => f.invocation.input)
  | codeSize => here (observe fun f => .ofNat f.invocation.code.length)
  | codeCopy => here (copyLow fun f => f.invocation.code.bytes)
  | gasPrice => here (Local.push h.environment.tx.gasPrice)
  | extCodeSize => inspect h.code Price.codeSize fun code => .ofNat code.size
  | extCodeCopy => Instruction.extCodeCopy h
  | returnDataSize => here Instruction.returnDataSize
  | returnDataCopy => here Instruction.returnDataCopy
  | extCodeHash => Instruction.codeHash h
  | blockHash => Instruction.blockHash h
  | coinbase => here (Local.push (.ofAddress h.environment.block.coinbase))
  | timestamp => here (Local.push h.environment.block.timestamp)
  | number => here (Local.push h.environment.block.number)
  | difficulty => here (Instruction.difficulty h.environment.block)
  | gasLimit => here (Local.push h.environment.block.gasLimit)
  | chainId => here (observeHaving .eip1344 (.ofNat h.environment.chain.id))
  | selfBalance => Instruction.selfBalance h
  | baseFee => here (observeHaving .eip3198 h.environment.block.baseFee)
  | pop => here discard
  | memLoad => here Instruction.memLoad
  | memStore => here Instruction.memStore
  | memStoreByte => here Instruction.memStoreByte
  | slotLoad => Instruction.slotLoad h
  | slotStore => Instruction.slotStore h
  | jump => here Instruction.jump
  | jumpIf => here Instruction.jumpIf
  | pc => here position
  | memSize => here (observe fun f => .ofNat f.memory.size)
  | gas => here (observe fun f => .ofNat f.gas.remaining)
  | jumpDest => pure ()
  | pushZero => here Instruction.pushZero
  | push n => here (pushBytes (n.val + 1))
  | dup n => here (Local.onStack (·.dup (n.val + 1)))
  | swap n => here (Local.onStack (·.swap (n.val + 1)))
  | log n => Instruction.log h n.val
  | create => Instruction.nest h (here (Instruction.create false))
  | call => Instruction.nest h (Instruction.call h)
  | callCode => Instruction.nest h (Instruction.callCode h)
  | ret => here (finish .returned)
  | delegateCall => Instruction.nest h (Instruction.delegateCall h)
  | create2 => Instruction.nest h (here (Instruction.create true))
  | staticCall => Instruction.nest h (Instruction.staticCall h)
  | revert => here Instruction.revert
  | invalid => here (Local.halt .invalidOpcode)
  | selfDestruct => Instruction.selfDestruct h

end MeteredVM.Opcode
