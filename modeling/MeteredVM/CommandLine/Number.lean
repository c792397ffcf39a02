import MeteredVM.Bytes
import MeteredVM.Fault

namespace MeteredVM.CommandLine

def decimal? (s : List Char) : Option Nat :=
  if s.isEmpty then none
  else s.foldlM (fun acc c => if c.isDigit then some (10 * acc + (c.toNat - '0'.toNat)) else none) 0

def unsigned : List Char → List Char
  | '+' :: digits => digits
  | digits => digits

def upTo (limit n : Nat) : Option Nat := if n ≤ limit then some n else none

def amount? (s : String) : Option Nat := do upTo Amount.max (← decimal? (unsigned s.toList))

def size? (s : String) : Option Nat :=
  match s.toList with
  | '0' :: 'x' :: digits => do upTo Amount.max (← Hex.toNat? (unsigned digits))
  | _ => amount? s

def proposal? (s : String) : Option Nat :=
  match s.toList with
  | '-' :: digits => do upTo 0 (← decimal? digits)
  | digits => do upTo 0xffff (← decimal? (unsigned digits))

end MeteredVM.CommandLine
