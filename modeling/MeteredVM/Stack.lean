import MeteredVM.Status
import MeteredVM.Bytes

namespace MeteredVM

structure Stack where
  items : List Word
  deriving DecidableEq, Repr, Inhabited

namespace Stack

def limit : Nat := 1024

def empty : Stack := ⟨[]⟩

def length (s : Stack) : Nat := s.items.length

def push (s : Stack) (w : Word) : Except Status Stack :=
  if s.items.length = limit then .error .stackOverflow else .ok ⟨w :: s.items⟩

/-- Puts a word on top that is given by at most 32 bytes. -/
def pushBytes (s : Stack) (b : Bytes) : Except Status Stack :=
  if b.size > 32 then .error .stackOverflow else s.push b.toWord

def pushAll (s : Stack) : List Word → Except Status Unit × Stack
  | [] => (.ok (), s)
  | w :: rest =>
    match s.push w with
    | .ok s => s.pushAll rest
    | .error status => (.error status, s)

def popN (s : Stack) (n : Nat) : Except Status ((Fin n → Word) × Stack) :=
  if h : n ≤ s.items.length then
    .ok (fun i => s.items.get ⟨i.val, Nat.lt_of_lt_of_le i.isLt h⟩, ⟨s.items.drop n⟩)
  else .error .stackUnderflow

def popNTop (s : Stack) (n : Nat) : Except Status ((Fin n → Word) × Word × Stack) :=
  if h : n < s.items.length then
    .ok (fun i => s.items.get ⟨i.val, Nat.lt_trans i.isLt h⟩, s.items[n], ⟨s.items.drop n⟩)
  else .error .stackUnderflow

def peek (s : Stack) (n : Nat) : Except Status Word :=
  match s.items[n]? with
  | some w => .ok w
  | none => .error .stackUnderflow

def set (s : Stack) (n : Nat) (w : Word) : Except Status Stack :=
  if n < s.items.length then .ok ⟨s.items.set n w⟩ else .error .stackUnderflow

def dup (s : Stack) (n : Nat) : Except Status Stack :=
  match s.items[n - 1]? with
  | some w => if s.items.length + 1 > limit then .error .stackOverflow else .ok ⟨w :: s.items⟩
  | none => .error .stackUnderflow

def swap (s : Stack) (n : Nat) : Except Status Stack :=
  match s.items[0]?, s.items[n]? with
  | some top, some low => .ok ⟨(s.items.set 0 low).set n top⟩
  | _, _ => .error .stackUnderflow

def render (s : Stack) : String :=
  "[" ++ ", ".intercalate (s.items.reverse.map fun w => toString w.toNat) ++ "]"

end Stack

end MeteredVM
