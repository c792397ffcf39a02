namespace MeteredVM

abbrev Word := BitVec 256

abbrev Address := BitVec 160

abbrev Hash := BitVec 256

/-! Words and addresses are keys of maps, which ask that their order is lawful. -/

instance : Std.TransOrd Word := BitVec.instTransOrd

instance : Std.LawfulEqOrd Word := BitVec.instLawfulEqOrd

instance : LawfulBEq Word := instLawfulBEq

instance : Std.TransOrd Address := BitVec.instTransOrd

instance : Std.LawfulEqOrd Address := BitVec.instLawfulEqOrd

namespace Word

def toAddress (w : Word) : Address := w.setWidth 160

def ofAddress (a : Address) : Word := a.setWidth 256

def ofBool (b : Bool) : Word := if b then 1 else 0

def ofNat (n : Nat) : Word := BitVec.ofNat 256 n

/-- The value of a word, or the largest 64-bit amount if the word exceeds it. -/
def clamp (w : Word) : Nat := min w.toNat (UInt64.size - 1)

def amount? (w : Word) : Option Nat := if w.toNat < UInt64.size then some w.toNat else none

end Word

end MeteredVM
