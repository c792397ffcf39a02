import MeteredVM.Word

namespace MeteredVM

abbrev Bytes := ByteArray

instance : DecidableEq Bytes := ByteArray.instDecidableEq

namespace Bytes

def zeros (n : Nat) : Bytes := ⟨Array.replicate n 0⟩

def at0 (b : Bytes) (i : Nat) : UInt8 := if h : i < b.size then b[i] else 0

/-- The `len` bytes from `off`, continued with zeros past the end. -/
def window (b : Bytes) (off len : Nat) : Bytes :=
  let part := b.extract off (off + len)
  part ++ zeros (len - part.size)

def toNat (b : Bytes) : Nat := b.data.foldl (fun acc x => acc * 256 + x.toNat) 0

def toWord (b : Bytes) : Word := BitVec.ofNat 256 b.toNat

/-- The `len` low bytes of a number, most significant first. -/
def ofNat (len n : Nat) : Bytes :=
  ⟨Array.ofFn fun i : Fin len => UInt8.ofNat (n >>> (8 * (len - 1 - i.val)))⟩

def ofWord (w : Word) : Bytes := ofNat 32 w.toNat

def ofAddress (a : Address) : Bytes := ofNat 20 a.toNat

@[simp] theorem size_zeros (n : Nat) : (zeros n).size = n := by
  simp [zeros, ByteArray.size]

@[simp] theorem size_ofNat (len n : Nat) : (ofNat len n).size = len := by
  simp [ofNat, ByteArray.size]

@[simp] theorem size_ofWord (w : Word) : (ofWord w).size = 32 := size_ofNat ..

theorem size_window (b : Bytes) (off len : Nat) : (b.window off len).size = len := by
  simp only [window, ByteArray.size_append, ByteArray.size_extract, size_zeros]
  omega

end Bytes

namespace Hex

def digit (n : Nat) : Char := Nat.digitChar n

def value? (c : Char) : Option Nat :=
  if '0' ≤ c ∧ c ≤ '9' then some (c.toNat - '0'.toNat)
  else if 'a' ≤ c ∧ c ≤ 'f' then some (c.toNat - 'a'.toNat + 10)
  else if 'A' ≤ c ∧ c ≤ 'F' then some (c.toNat - 'A'.toNat + 10)
  else none

def digits (len n : Nat) : String :=
  String.ofList ((List.range len).map fun i => digit (n >>> (4 * (len - 1 - i)) % 16))

def ofBytes (b : Bytes) : String :=
  b.data.foldl (fun s x => (s.push (digit (x.toNat / 16))).push (digit (x.toNat % 16))) ""

def bytesOf? : List Char → Bytes → Option Bytes
  | [], acc => some acc
  | [_], _ => none
  | c :: d :: rest, acc => do
    let hi ← value? c
    let lo ← value? d
    bytesOf? rest (acc.push (UInt8.ofNat (16 * hi + lo)))

def toBytes? (s : List Char) : Option Bytes := bytesOf? s ByteArray.empty

def toNat? (s : List Char) : Option Nat :=
  if s.isEmpty then none
  else s.foldlM (fun acc c => (value? c).map (16 * acc + ·)) 0

end Hex

end MeteredVM
