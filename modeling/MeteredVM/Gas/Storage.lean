import MeteredVM.Rules
import MeteredVM.Word

namespace MeteredVM

structure SlotChange where
  /-- The value before the transaction. -/
  initial : Word
  present : Word
  new : Word
  deriving DecidableEq, Repr

namespace Price

def slotSet : Nat := 20000

structure NetTier where
  /-- Touching a slot that is already changed, or not changing it. -/
  touch : Nat
  /-- Changing a nonzero slot for the first time. -/
  reset : Nat
  deriving DecidableEq, Repr

def netTier? (r : Rules) : Option NetTier :=
  if r.has .eip2929 then some ⟨100, 2900⟩
  else if r.has .eip2200 then some ⟨800, 5000⟩
  else if r.has .eip1283 then some ⟨200, 5000⟩
  else none

def clearRefund (r : Rules) : Int := if r.has .eip3529 then 4800 else 15000

/-- The refund of a write under net metering. A clear that an earlier write was paid for is taken
back when the slot becomes nonzero again, and restoring the initial value pays the first change
back. -/
def netRefund (tier : NetTier) (clear : Int) (c : SlotChange) : Int :=
  if c.new = c.present then 0
  else if c.initial = c.present ∧ c.new = 0 then clear
  else
    (if c.initial = 0 then 0
     else if c.present = 0 then -clear
     else if c.new = 0 then clear
     else 0) +
    (if c.initial = c.new then
      (if c.initial = 0 then (slotSet : Int) - tier.touch else (tier.reset : Int) - tier.touch)
     else 0)

def slotRefund (r : Rules) (c : SlotChange) : Int :=
  match netTier? r with
  | some tier => netRefund tier (clearRefund r) c
  | none => if c.present ≠ 0 ∧ c.new = 0 then 15000 else 0

/-- The price of a write under net metering: only the first change of a slot costs more than
touching it. -/
def netWrite (tier : NetTier) (c : SlotChange) : Nat :=
  if c.new = c.present then tier.touch
  else if c.initial = c.present then if c.initial = 0 then slotSet else tier.reset
  else tier.touch

def slotWrite (r : Rules) (c : SlotChange) (cold : Bool) : Nat :=
  match netTier? r with
  | some tier => netWrite tier c + (if r.has .eip2929 && cold then 2100 else 0)
  | none => if c.present = 0 ∧ c.new ≠ 0 then slotSet else 5000

def sentry : Nat := 2300

end Price

end MeteredVM
