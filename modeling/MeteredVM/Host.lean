import MeteredVM.Access
import MeteredVM.Account
import MeteredVM.Environment
import MeteredVM.Gas.Meter

namespace MeteredVM

structure CallRequest where
  /-- The account whose code runs. -/
  codeAddress : Address
  source : Address
  target : Address
  value : Word
  input : Bytes
  /-- The gas of the callee, stipend included. -/
  gasLimit : Nat
  /-- The account whose storage and balance the code acts on. -/
  address : Address
  /-- The caller that the code sees. -/
  caller : Address
  /-- The value that the code sees. -/
  apparentValue : Word
  isStatic : Bool
  deriving DecidableEq

structure CreateRequest where
  creator : Address
  /-- The salt, for an address that does not depend on the creator's nonce. -/
  salt : Option Word
  value : Word
  initCode : Bytes
  gasLimit : Nat
  deriving DecidableEq

structure CallReply where
  status : Status
  /-- The meter of the callee. -/
  gas : Gas
  output : Bytes
  deriving DecidableEq

structure CreateReply where
  status : Status
  /-- The address of the creation, if it got one. -/
  address : Option Address
  /-- The meter of the init code. -/
  gas : Gas
  output : Bytes
  deriving DecidableEq

/-- The host could not load what it was asked for. It remembers the reason itself. -/
structure Unavailable where
  deriving DecidableEq, Repr

abbrev Query (σ α : Type) := EStateM Unavailable σ α

abbrev Nested (σ α : Type) := StateT σ (Except Fault) α

structure Host (σ : Type) where
  environment : Environment
  /-- Accesses an account that is about to be called. -/
  existence : Address → Query σ Existence
  blockHash : Nat → Query σ Hash
  balance : Address → Query σ (Loaded Word)
  code : Address → Query σ (Loaded Bytes)
  /-- The code hash, zero for an account that is empty. -/
  codeHash : Address → Query σ (Loaded Hash)
  readSlot : Address → Word → Query σ (Loaded Word)
  writeSlot : Address → Word → Word → Query σ (Loaded SlotChange)
  selfDestruct : Address → Address → Query σ (Loaded Destruction)
  refund : Int → σ → Except Fault σ
  log : Log → σ → σ
  call : CallRequest → Nested σ CallReply
  create : CreateRequest → Nested σ CreateReply

end MeteredVM
