namespace MeteredVM

inductive Fault where
  /-- A 64-bit amount or counter left its range. -/
  | overflow
  /-- A byte range does not lie within the bytes it selects from. -/
  | outOfRange
  /-- A quotient with divisor zero was asked for. -/
  | divisionByZero
  deriving DecidableEq, Repr

namespace Amount

def max : Nat := UInt64.size - 1

def add? (a b : Nat) : Option Nat := if a + b ≤ max then some (a + b) else none

def mul? (a b : Nat) : Option Nat := if a * b ≤ max then some (a * b) else none

def addClamped (a b : Nat) : Nat := min (a + b) max

def mulClamped (a b : Nat) : Nat := min (a * b) max

def add (a b : Nat) : Except Fault Nat :=
  if a + b ≤ max then .ok (a + b) else .error .overflow

def sub (a b : Nat) : Except Fault Nat :=
  if b ≤ a then .ok (a - b) else .error .overflow

end Amount

namespace Counter

def add (a b : Int) : Except Fault Int :=
  if Int64.minValue.toInt ≤ a + b ∧ a + b ≤ Int64.maxValue.toInt then .ok (a + b) else .error .overflow

end Counter

end MeteredVM
