import MeteredVM.Word

namespace MeteredVM.Word

def div (a b : Word) : Word := if b = 0 then 0 else a / b

def mod (a b : Word) : Word := if b = 0 then 0 else a % b

inductive Sign where
  | minus
  | zero
  | plus
  deriving DecidableEq, Repr

def sign (w : Word) : Sign := if w.msb then .minus else if w = 0 then .zero else .plus

def Sign.rank : Sign → Nat
  | minus => 0
  | zero => 1
  | plus => 2

def magnitude (w : Word) : Word := if w.msb then -w else w

/-- The word of the least signed reading, which is its own negative. -/
def least : Word := BitVec.intMin 256

def clearSign (w : Word) : Word := w &&& ~~~least

/-- The order of the signed readings: words of one sign are ordered as they stand. -/
def signedCompare (a b : Word) : Ordering :=
  (compare a.sign.rank b.sign.rank).then (compare a b)

/-- The signed quotient, rounded toward zero; zero for the divisor zero. Only quotients of the least
word by one and minus one have a magnitude with the bit of the sign. -/
def signedDiv (a b : Word) : Word :=
  if b.sign = .zero then 0
  else if a.magnitude = least ∧ b.magnitude = 1 then
    if b.sign = .minus then least else -least
  else
    let q := (a.magnitude / b.magnitude).clearSign
    if q = 0 then 0
    else
      match a.sign, b.sign with
      | .minus, .plus | .plus, .minus => -q
      | _, _ => q

/-- The signed remainder, with the sign of the dividend; zero for the divisor zero. -/
def signedMod (a b : Word) : Word :=
  if a.sign = .zero ∨ b.sign = .zero then 0
  else
    let r := (a.magnitude % b.magnitude).clearSign
    if r = 0 then 0
    else if a.sign = .minus then -r
    else r

def addMod (a b m : Word) : Word := if m = 0 then 0 else ofNat ((a.toNat + b.toNat) % m.toNat)

def mulMod (a b m : Word) : Word := if m = 0 then 0 else ofNat (a.toNat * b.toNat % m.toNat)

def power (base exponent : Word) : Word := go 256 base exponent
where
  /-- The power for exponents below `2 ^ n`, by squaring. -/
  go : Nat → Word → Word → Word
    | 0, _, _ => 1
    | n + 1, base, exponent =>
      if exponent = 0 then 1
      else
        let rest := go n (base * base) (exponent >>> 1)
        if exponent.getLsbD 0 then base * rest else rest

/-- Repeats the sign bit of the low `size + 1` bytes in the bits above them. -/
def signExtend (size w : Word) : Word :=
  if size < 31 then
    let top := 8 * size.toNat + 7
    let mask : Word := (1 <<< top) - 1
    if w.getLsbD top then w ||| ~~~mask else w &&& mask
  else w

/-- The byte at a position counted from the most significant end, zero past the other end. -/
def byteAt (position w : Word) : Word :=
  if position.clamp < 32 then (w >>> (8 * (31 - position.clamp))) &&& 0xff else 0

def shiftLeft (count w : Word) : Word := if count.clamp < 256 then w <<< count.clamp else 0

def shiftRight (count w : Word) : Word := if count.clamp < 256 then w >>> count.clamp else 0

def signedShiftRight (count w : Word) : Word :=
  if count.clamp < 256 then w.sshiftRight count.clamp
  else if w.msb then BitVec.allOnes 256
  else 0

end MeteredVM.Word
