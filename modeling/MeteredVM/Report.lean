import MeteredVM.Account
import MeteredVM.Fault
import MeteredVM.Status

namespace MeteredVM

inductive Output where
  | call (data : Bytes)
  | create (data : Bytes) (address : Option Address)
  deriving DecidableEq

namespace Output

def data : Output → Bytes
  | call data => data
  | create data _ => data

def cleared : Output → Output
  | call _ => call ByteArray.empty
  | create _ _ => create ByteArray.empty none

end Output

structure Report where
  outcome : Outcome
  output : Output
  gasLimit : Nat
  gasRemaining : Nat
  /-- The gas used, before any refund. -/
  gasUsed : Nat
  /-- The refund counter, zero unless the execution succeeded. -/
  refund : Nat
  /-- At most the gas used divided by this is paid back, anything if there is no cap. -/
  refundQuotient : Option Nat
  /-- The log, oldest entry first. -/
  logs : List Log
  deriving DecidableEq

namespace Report

def cappedRefund (r : Report) : Except Fault Nat :=
  match r.refundQuotient with
  | some 0 => .error .divisionByZero
  | some quotient => .ok (min r.refund (r.gasUsed / quotient))
  | none => .ok r.refund

def gasSpent (r : Report) : Except Fault Nat := do Amount.sub r.gasUsed (← r.cappedRefund)

end Report

def Verdict.outcome? : Verdict → Option Outcome
  | success reason => some (.success reason)
  | revert => some .revert
  | halt reason => some (.halt reason)
  | failure | unfinished => none

end MeteredVM
