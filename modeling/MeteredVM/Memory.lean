import MeteredVM.Fault
import MeteredVM.Bytes

namespace MeteredVM

/-- Writes bytes over those from a position on. -/
def Bytes.overwrite (b : Bytes) (off : Nat) (src : Bytes) : Bytes :=
  src.copySlice 0 b off src.size

structure Memory where
  data : Bytes
  deriving DecidableEq, Inhabited

namespace Memory

def empty : Memory := ⟨ByteArray.empty⟩

def size (m : Memory) : Nat := m.data.size

def resize (m : Memory) (n : Nat) : Memory :=
  if n ≤ m.data.size then ⟨m.data.extract 0 n⟩ else ⟨m.data ++ Bytes.zeros (n - m.data.size)⟩

def slice (m : Memory) (off len : Nat) : Except Fault Bytes :=
  if off + len ≤ m.data.size then .ok (m.data.extract off (off + len)) else .error .outOfRange

def word (m : Memory) (off : Nat) : Except Fault Word := (m.slice off 32).map Bytes.toWord

/-- Writes bytes at `off`. Writing none is possible anywhere. -/
def set (m : Memory) (off : Nat) (b : Bytes) : Except Fault Memory :=
  if b.size = 0 then .ok m
  else if off + b.size ≤ m.data.size then .ok ⟨m.data.overwrite off b⟩
  else .error .outOfRange

def setByte (m : Memory) (off : Nat) (b : UInt8) : Except Fault Memory :=
  if off < m.data.size then .ok ⟨m.data.set! off b⟩ else .error .outOfRange

def setWord (m : Memory) (off : Nat) (w : Word) : Except Fault Memory := m.set off (.ofWord w)

/-- Writes `len` bytes of `data` from `dataOff` on, with zeros past its end. -/
def setData (m : Memory) (off dataOff len : Nat) (data : Bytes) : Except Fault Memory :=
  if off + len ≤ m.data.size then .ok ⟨m.data.overwrite off (data.window dataOff len)⟩
  else .error .outOfRange

def copyWithin (m : Memory) (dst src len : Nat) : Except Fault Memory :=
  if src + len ≤ m.data.size ∧ dst + len ≤ m.data.size then
    .ok ⟨m.data.overwrite dst (m.data.extract src (src + len))⟩
  else .error .outOfRange

end Memory

end MeteredVM
