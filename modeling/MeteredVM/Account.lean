import MeteredVM.Keccak
import Std.Data.ExtTreeMap

namespace MeteredVM

/-- The hash that names a code. -/
def codeHash (code : Bytes) : Hash := if code.size = 0 then emptyCodeHash else keccak256 code

structure AccountInfo where
  balance : Word := 0
  nonce : Nat := 0
  codeHash : Hash := emptyCodeHash
  /-- The code, if it has been fetched. -/
  code : Option Bytes := some ByteArray.empty
  deriving DecidableEq, Inhabited

namespace AccountInfo

def ofCode (balance : Word) (nonce : Nat) (code : Bytes) : AccountInfo :=
  ⟨balance, nonce, MeteredVM.codeHash code, some code⟩

def lacksCode (i : AccountInfo) : Bool := i.codeHash == emptyCodeHash || i.codeHash == 0

def hasCode (i : AccountInfo) : Bool := !i.lacksCode

def isEmpty (i : AccountInfo) : Bool := i.lacksCode && i.balance == 0 && i.nonce == 0

def withCode (i : AccountInfo) (code : Bytes) : AccountInfo :=
  { i with codeHash := MeteredVM.codeHash code, code := some code }

/-- The same balance, nonce and code hash; fetched code does not matter. -/
def Same (a b : AccountInfo) : Prop :=
  a.balance = b.balance ∧ a.nonce = b.nonce ∧ a.codeHash = b.codeHash

end AccountInfo

structure AccountFlags where
  /-- It was created, so its storage starts empty. -/
  created : Bool := false
  /-- It is marked for destruction. -/
  destroyed : Bool := false
  /-- It is written back at the end. -/
  touched : Bool := false
  /-- It did not exist when it was loaded. -/
  absent : Bool := false
  deriving DecidableEq, Repr, Inhabited

def AccountFlags.bits (f : AccountFlags) : Nat :=
  f.created.toNat + 2 * f.destroyed.toNat + 4 * f.touched.toNat + 8 * f.absent.toNat

def AccountFlags.ofBits (n : Nat) : AccountFlags :=
  ⟨n.testBit 0, n.testBit 1, n.testBit 2, n.testBit 3⟩

abbrev Slots := Std.ExtTreeMap Word Word

structure Account where
  info : AccountInfo
  /-- The slots read or written so far, with their present values. -/
  slots : Slots := ∅
  flags : AccountFlags := {}
  deriving DecidableEq, Inhabited

def Account.notExisting : Account := { info := {}, flags := { absent := true } }

abbrev Accounts := Std.ExtTreeMap Address Account

structure Log where
  address : Address
  topics : List Hash
  data : Bytes
  deriving DecidableEq, Inhabited

end MeteredVM
