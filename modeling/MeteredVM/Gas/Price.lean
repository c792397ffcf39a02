import MeteredVM.Fault
import MeteredVM.Rules
import MeteredVM.Word

namespace MeteredVM.Price

def words (len : Nat) : Nat := (len + 31) / 32

def perWord (len rate : Nat) : Option Nat := Amount.mul? rate (words len)

def copyRate : Nat := 3

def hashRate : Nat := 6

def creation : Nat := 32000

def copy (base len : Nat) : Option Nat := do Amount.add? base (← perWord len copyRate)

def copyLow (len : Nat) : Option Nat := copy 3 len

def hash (len : Nat) : Option Nat := do Amount.add? 30 (← perWord len hashRate)

def saltedCreation (len : Nat) : Option Nat := do Amount.add? creation (← perWord len hashRate)

def log (topics len : Nat) : Option Nat := do
  Amount.add? (← Amount.add? 375 (← Amount.mul? 8 len)) (375 * topics)

def initCode (len : Nat) : Option Nat := perWord len 2

def codeDeposit (len : Nat) : Option Nat := Amount.mul? 200 len

/-- The index of the highest set bit of a word that is not zero. The bits are counted down from 256
by limbs of 64, the highest one first: a zero limb takes 64 off, the first other one its leading
zeros and one more. -/
def topBit (w : Word) : Except Fault Nat := go 4 256
where
  /-- The same when `n` low limbs and `left` bits are left. -/
  go : Nat → Nat → Except Fault Nat
    | 0, left => .ok left
    | n + 1, left => do
      let limb := w.extractLsb' (64 * n) 64
      if limb = 0 then go n (← Amount.sub left 64)
      else
        let left ← Amount.sub left limb.clz.toNat
        if left = 0 then return left else Amount.sub left 1

/-- Raising to a power, for each significant byte of the exponent. The count of its bits has an answer
for every exponent. -/
def exp (r : Rules) (power : Word) : Option Nat :=
  if power = 0 then some 10
  else do
    let top ← (topBit power).toOption
    Amount.add? 10 ((if r.since .spuriousDragon then 50 else 10) * (top / 8 + 1))

def account (cold : Bool) : Nat := if cold then 2600 else 100

def slotRead (r : Rules) (cold : Bool) : Nat :=
  if r.has .eip2929 then if cold then 2100 else 100
  else if r.has .eip1884 then 800
  else if r.since .tangerine then 200
  else 50

def balance (r : Rules) (cold : Bool) : Nat :=
  if r.has .eip2929 then account cold
  else if r.has .eip1884 then 700
  else if r.since .tangerine then 400
  else 20

def codeSize (r : Rules) (cold : Bool) : Nat :=
  if r.has .eip2929 then account cold
  else if r.since .tangerine then 700
  else 20

def codeHash (r : Rules) (cold : Bool) : Nat :=
  if r.has .eip2929 then account cold
  else if r.has .eip1884 then 700
  else 400

def codeCopy (r : Rules) (len : Nat) (cold : Bool) : Option Nat := copy (codeSize r cold) len

def newAccount : Nat := 25000

/-- A call: access to the account, a surcharge for value, and one for an account that the call
brings into existence. Since Spurious Dragon only value brings one into existence. -/
def call (r : Rules) (withValue absent cold : Bool) : Nat :=
  (if r.has .eip2929 then account cold else if r.since .tangerine then 700 else 40) +
  (if withValue then 9000 else 0) +
  (if absent && (withValue || !r.since .spuriousDragon) then newAccount else 0)

/-- A self-destruction: free before Tangerine, later with a surcharge for a beneficiary that it
brings into existence. -/
def selfDestruct (r : Rules) (hadValue targetExists cold : Bool) : Nat :=
  (if r.since .tangerine then
    5000 + (if !targetExists && (hadValue || !r.since .spuriousDragon) then newAccount else 0)
  else 0) +
  (if r.has .eip2929 && cold then 2600 else 0)

def selfDestructRefund : Int := 24000

def allButOne64th (gas : Nat) : Nat := gas - gas / 64

/-- The gas handed to a callee: since Tangerine at most all but one 64th of what is left, before
it whatever is asked for, which then has to be there. -/
def forwarded (r : Rules) (remaining : Nat) (requested : Word) : Nat :=
  if r.since .tangerine then min requested.clamp (allButOne64th remaining) else requested.clamp

def stipend : Nat := 2300

end MeteredVM.Price
