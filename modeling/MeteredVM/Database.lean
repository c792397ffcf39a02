import MeteredVM.Account

namespace MeteredVM

inductive Lookup where
  | account (address : Address)
  | code (hash : Hash)
  | slot (address : Address) (key : Word)
  | blockHash (number : Nat)
  deriving DecidableEq, Repr

structure Outage where
  reason : String
  deriving DecidableEq, Repr

/-- A database: its answers, and an outage plan that may depend on the lookups made before. -/
structure Database where
  account : Address → Option AccountInfo
  code : Hash → Bytes
  slot : Address → Word → Word
  blockHash : Nat → Hash
  /-- Whether a lookup fails after the given ones, the newest first. -/
  outage : List Lookup → Lookup → Option Outage

namespace Database

def placeholderHash (number : Nat) : Hash := keccak256 (.ofWord (.ofNat number))

def empty : Database where
  account _ := none
  code _ := ByteArray.empty
  slot _ _ := 0
  blockHash := placeholderHash
  outage _ _ := none

instance : Inhabited Database := ⟨empty⟩

end Database

end MeteredVM
