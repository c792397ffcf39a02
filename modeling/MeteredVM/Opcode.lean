import MeteredVM.Bytes

namespace MeteredVM

/-- An opcode. The families of pushes, duplicates, exchanges and logs are counted from zero:
`push 0` pushes one byte, `dup 0` the top item, `swap 0` exchanges the top two, and `log n` has
`n` topics. -/
inductive Opcode where
  | stop | add | mul | sub | div | signedDiv | mod | signedMod | addMod | mulMod | exp
  | signExtend | lt | gt | signedLt | signedGt | eq | isZero | bitAnd | bitOr | bitXor | bitNot
  | byteAt | shiftLeft | shiftRight | signedShiftRight | keccak | address | balance | origin
  | caller | callValue | callDataLoad | callDataSize | callDataCopy | codeSize | codeCopy
  | gasPrice | extCodeSize | extCodeCopy | returnDataSize | returnDataCopy | extCodeHash
  | blockHash | coinbase | timestamp | number | difficulty | gasLimit | chainId | selfBalance
  | baseFee | pop | memLoad | memStore | memStoreByte | slotLoad | slotStore | jump | jumpIf | pc
  | memSize | gas | jumpDest | pushZero
  | push (n : Fin 32)
  | dup (n : Fin 16)
  | swap (n : Fin 16)
  | log (topics : Fin 5)
  | create | call | callCode | ret | delegateCall | create2 | staticCall | revert | invalid
  | selfDestruct
  deriving DecidableEq, Repr

namespace Opcode

structure Info where
  byte : UInt8
  name : String
  inputs : Nat
  outputs : Nat
  /-- The gas charged before it runs. -/
  gas : Nat
  /-- The bytes of code after it that belong to it. -/
  immediate : Nat
  ends : Bool
  deriving DecidableEq, Repr

def Info.growth (i : Info) : Int := (i.outputs : Int) - i.inputs

def plain (byte : UInt8) (name : String) (inputs outputs gas : Nat) : Info :=
  ⟨byte, name, inputs, outputs, gas, 0, false⟩

def final (byte : UInt8) (name : String) (inputs : Nat) : Info := ⟨byte, name, inputs, 0, 0, 0, true⟩

def info : Opcode → Info
  | stop => final 0x00 "STOP" 0
  | add => plain 0x01 "ADD" 2 1 3
  | mul => plain 0x02 "MUL" 2 1 5
  | sub => plain 0x03 "SUB" 2 1 3
  | div => plain 0x04 "DIV" 2 1 5
  | signedDiv => plain 0x05 "SDIV" 2 1 5
  | mod => plain 0x06 "MOD" 2 1 5
  | signedMod => plain 0x07 "SMOD" 2 1 5
  | addMod => plain 0x08 "ADDMOD" 3 1 8
  | mulMod => plain 0x09 "MULMOD" 3 1 8
  | exp => plain 0x0A "EXP" 2 1 0
  | signExtend => plain 0x0B "SIGNEXTEND" 2 1 5
  | lt => plain 0x10 "LT" 2 1 3
  | gt => plain 0x11 "GT" 2 1 3
  | signedLt => plain 0x12 "SLT" 2 1 3
  | signedGt => plain 0x13 "SGT" 2 1 3
  | eq => plain 0x14 "EQ" 2 1 3
  | isZero => plain 0x15 "ISZERO" 1 1 3
  | bitAnd => plain 0x16 "AND" 2 1 3
  | bitOr => plain 0x17 "OR" 2 1 3
  | bitXor => plain 0x18 "XOR" 2 1 3
  | bitNot => plain 0x19 "NOT" 1 1 3
  | byteAt => plain 0x1A "BYTE" 2 1 3
  | shiftLeft => plain 0x1B "SHL" 2 1 3
  | shiftRight => plain 0x1C "SHR" 2 1 3
  | signedShiftRight => plain 0x1D "SAR" 2 1 3
  | keccak => plain 0x20 "KECCAK256" 2 1 0
  | address => plain 0x30 "ADDRESS" 0 1 2
  | balance => plain 0x31 "BALANCE" 1 1 0
  | origin => plain 0x32 "ORIGIN" 0 1 2
  | caller => plain 0x33 "CALLER" 0 1 2
  | callValue => plain 0x34 "CALLVALUE" 0 1 2
  | callDataLoad => plain 0x35 "CALLDATALOAD" 1 1 3
  | callDataSize => plain 0x36 "CALLDATASIZE" 0 1 2
  | callDataCopy => plain 0x37 "CALLDATACOPY" 3 0 0
  | codeSize => plain 0x38 "CODESIZE" 0 1 2
  | codeCopy => plain 0x39 "CODECOPY" 3 0 0
  | gasPrice => plain 0x3A "GASPRICE" 0 1 2
  | extCodeSize => plain 0x3B "EXTCODESIZE" 1 1 0
  | extCodeCopy => plain 0x3C "EXTCODECOPY" 4 0 0
  | returnDataSize => plain 0x3D "RETURNDATASIZE" 0 1 2
  | returnDataCopy => plain 0x3E "RETURNDATACOPY" 3 0 0
  | extCodeHash => plain 0x3F "EXTCODEHASH" 1 1 0
  | blockHash => plain 0x40 "BLOCKHASH" 1 1 20
  | coinbase => plain 0x41 "COINBASE" 0 1 2
  | timestamp => plain 0x42 "TIMESTAMP" 0 1 2
  | number => plain 0x43 "NUMBER" 0 1 2
  | difficulty => plain 0x44 "DIFFICULTY" 0 1 2
  | gasLimit => plain 0x45 "GASLIMIT" 0 1 2
  | chainId => plain 0x46 "CHAINID" 0 1 2
  | selfBalance => plain 0x47 "SELFBALANCE" 0 1 5
  | baseFee => plain 0x48 "BASEFEE" 0 1 2
  | pop => plain 0x50 "POP" 1 0 2
  | memLoad => plain 0x51 "MLOAD" 1 1 3
  | memStore => plain 0x52 "MSTORE" 2 0 3
  | memStoreByte => plain 0x53 "MSTORE8" 2 0 3
  | slotLoad => plain 0x54 "SLOAD" 1 1 0
  | slotStore => plain 0x55 "SSTORE" 2 0 0
  | jump => plain 0x56 "JUMP" 1 0 8
  | jumpIf => plain 0x57 "JUMPI" 2 0 10
  | pc => plain 0x58 "PC" 0 1 2
  | memSize => plain 0x59 "MSIZE" 0 1 2
  | gas => plain 0x5A "GAS" 0 1 2
  | jumpDest => plain 0x5B "JUMPDEST" 0 0 1
  | pushZero => plain 0x5F "PUSH0" 0 1 2
  | push n =>
    ⟨0x60 + UInt8.ofNat n, "PUSH" ++ toString (n.val + 1), 0, 1, 3, n.val + 1, false⟩
  | dup n => plain (0x80 + UInt8.ofNat n) ("DUP" ++ toString (n.val + 1)) (n + 1) (n + 2) 3
  | swap n => plain (0x90 + UInt8.ofNat n) ("SWAP" ++ toString (n.val + 1)) (n + 2) (n + 2) 3
  | log n => plain (0xA0 + UInt8.ofNat n) ("LOG" ++ toString n.val) (n + 2) 0 0
  | create => plain 0xF0 "CREATE" 3 1 0
  | call => plain 0xF1 "CALL" 7 1 0
  | callCode => plain 0xF2 "CALLCODE" 7 1 0
  | ret => final 0xF3 "RETURN" 2
  | delegateCall => plain 0xF4 "DELEGATECALL" 6 1 0
  | create2 => plain 0xF5 "CREATE2" 4 1 0
  | staticCall => plain 0xFA "STATICCALL" 6 1 0
  | revert => final 0xFD "REVERT" 2
  | invalid => final 0xFE "INVALID" 0
  | selfDestruct => final 0xFF "SELFDESTRUCT" 1

def byte (op : Opcode) : UInt8 := op.info.byte

def name (op : Opcode) : String := op.info.name

def low : List Opcode :=
  [stop, add, mul, sub, div, signedDiv, mod, signedMod, addMod, mulMod, exp, signExtend, lt, gt,
   signedLt, signedGt, eq, isZero, bitAnd, bitOr, bitXor, bitNot, byteAt, shiftLeft, shiftRight,
   signedShiftRight, keccak, address, balance, origin, caller, callValue, callDataLoad,
   callDataSize, callDataCopy, codeSize, codeCopy, gasPrice, extCodeSize, extCodeCopy,
   returnDataSize, returnDataCopy, extCodeHash, blockHash, coinbase, timestamp, number,
   difficulty, gasLimit, chainId, selfBalance, baseFee, pop, memLoad, memStore, memStoreByte,
   slotLoad, slotStore, jump, jumpIf, pc, memSize, gas, jumpDest, pushZero]

def families : List Opcode :=
  (List.finRange 32).map push ++ (List.finRange 16).map dup ++ (List.finRange 16).map swap ++
  (List.finRange 5).map log

def high : List Opcode :=
  [create, call, callCode, ret, delegateCall, create2, staticCall, revert, invalid, selfDestruct]

def all : List Opcode := low ++ families ++ high

theorem mem_all (op : Opcode) : op ∈ all := by
  simp only [all, List.mem_append]
  cases op with
  | push | dup | swap | log => left; right; simp [families]
  | create | call | callCode | ret | delegateCall | create2 | staticCall | revert | invalid
  | selfDestruct => right; decide
  | _ => left; left; decide

def decoded : Array (Option Opcode) :=
  Array.ofFn fun b : Fin 256 => all.find? (fun op => op.byte.toNat == b.val)

def ofByte? (b : UInt8) : Option Opcode := decoded[b.toNat]?.join

def ofName? (s : String) : Option Opcode := all.find? (·.name == s)

def nameOf (b : UInt8) : String :=
  match ofByte? b with
  | some op => op.name
  | none => "UNKNOWN"

def gasOf (b : UInt8) : Nat :=
  match ofByte? b with
  | some op => op.info.gas
  | none => 0

def isPush : Opcode → Bool
  | push _ => true
  | _ => false

def dataAfter (b : UInt8) : Nat := if 0x60 ≤ b ∧ b ≤ 0x7f then b.toNat - 0x5f else 0

def unknownMessage : String := "invalid opcode"

end Opcode

end MeteredVM
