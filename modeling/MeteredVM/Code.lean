import MeteredVM.Fault
import MeteredVM.Opcode

namespace MeteredVM

namespace Code

def padding : Nat := 33

/-- One byte of the sweep: while data bytes are due they are passed over, else the byte is an
opcode, marked if one may jump there. -/
def sweepByte (s : Array Bool × Nat) (b : UInt8) : Array Bool × Nat :=
  match s.2 with
  | 0 => (s.1.push (b == 0x5b), Opcode.dataAfter b)
  | due + 1 => (s.1.push false, due)

/-- For each position whether one may jump there. -/
def sweep (code : Bytes) : Array Bool := (code.data.foldl sweepByte (#[], 0)).1

end Code

/-- Code together with what its sweep found. -/
structure Code where
  bytes : Bytes
  padded : Bytes
  /-- For each position of the padded code whether one may jump there. -/
  marks : Array Bool
  padded_eq : padded = bytes ++ Bytes.zeros Code.padding
  marks_eq : marks = Code.sweep padded

namespace Code

def ofBytes (bytes : Bytes) : Code where
  bytes := bytes
  padded := bytes ++ Bytes.zeros padding
  marks := sweep (bytes ++ Bytes.zeros padding)
  padded_eq := rfl
  marks_eq := rfl

def length (c : Code) : Nat := c.bytes.size

def isDestination (c : Code) (pos : Nat) : Bool := c.marks[pos]?.getD false

def destinations (c : Code) : List Nat := (List.range c.marks.size).filter c.isDestination

def byteAt (c : Code) (pos : Nat) : UInt8 := c.padded.at0 pos

/-- The `len` bytes from a position on, which have to lie within the code and the zeros after it. -/
def slice (c : Code) (pos len : Nat) : Except Fault Bytes :=
  if pos + len ≤ c.padded.size then .ok (c.padded.extract pos (pos + len)) else .error .outOfRange

theorem size_padded (c : Code) : c.padded.size = c.bytes.size + padding := by
  rw [c.padded_eq, ByteArray.size_append, Bytes.size_zeros]

end Code

end MeteredVM
