import MeteredVM.Word

namespace MeteredVM

structure Chain where
  id : Nat := 1
  /-- A limit on the length of deployed code that replaces the standard one. -/
  codeLimit : Option Nat := none
  /-- Whether the refund is reported without its cap. -/
  uncappedRefund : Bool := false
  deriving DecidableEq, Repr, Inhabited

def Chain.standardCodeLimit : Nat := 0x6000

def Chain.maxCode (c : Chain) : Nat := c.codeLimit.getD standardCodeLimit

structure Block where
  number : Word := 0
  coinbase : Address := 0
  timestamp : Word := 1
  gasLimit : Word := BitVec.allOnes 256
  baseFee : Word := 0
  difficulty : Word := 0
  /-- The randomness that takes the place of the difficulty after the merge. -/
  randomness : Option Hash := some 0
  deriving DecidableEq, Repr, Inhabited

structure Transaction where
  caller : Address := 0x0c
  origin : Address := 0x0c
  gasPrice : Word := 0
  target : Address := 0x0a
  value : Word := 0
  deriving DecidableEq, Repr, Inhabited

structure Environment where
  chain : Chain := {}
  block : Block := {}
  tx : Transaction := {}
  deriving DecidableEq, Repr, Inhabited

end MeteredVM
