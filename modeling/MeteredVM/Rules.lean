import MeteredVM.Hardfork

namespace MeteredVM

/-- The protocol changes that can be in force one by one, named by their proposal. -/
inductive Eip where
  /-- Net gas metering of storage writes, Constantinople only. -/
  | eip1283
  /-- The chain id opcode. -/
  | eip1344
  /-- Repricing of state reads, and the own-balance opcode. -/
  | eip1884
  /-- Net gas metering of storage writes with a sentry. -/
  | eip2200
  /-- Cold and warm prices of state access. -/
  | eip2929
  /-- The base fee opcode. -/
  | eip3198
  /-- Smaller refunds. -/
  | eip3529
  /-- No deployed code starts with `0xEF`. -/
  | eip3541
  /-- The coinbase is warm from the start. -/
  | eip3651
  /-- The opcode that pushes zero. -/
  | eip3855
  /-- Init code is limited and metered. -/
  | eip3860
  deriving DecidableEq, Repr

namespace Eip

def all : List Eip :=
  [eip1283, eip1344, eip1884, eip2200, eip2929, eip3198, eip3529, eip3541, eip3651, eip3855,
   eip3860]

def number : Eip → Nat
  | eip1283 => 1283
  | eip1344 => 1344
  | eip1884 => 1884
  | eip2200 => 2200
  | eip2929 => 2929
  | eip3198 => 3198
  | eip3529 => 3529
  | eip3541 => 3541
  | eip3651 => 3651
  | eip3855 => 3855
  | eip3860 => 3860

def index : Eip → Fin 11
  | eip1283 => 0
  | eip1344 => 1
  | eip1884 => 2
  | eip2200 => 3
  | eip2929 => 4
  | eip3198 => 5
  | eip3529 => 6
  | eip3541 => 7
  | eip3651 => 8
  | eip3855 => 9
  | eip3860 => 10

theorem index_injective {a b : Eip} (h : a.index = b.index) : a = b := by
  cases a <;> cases b <;> first | rfl | exact absurd h (by decide)

def ofNumber? (n : Nat) : Option Eip := all.find? (·.number == n)

def flag (e : Eip) : BitVec 11 := 1#11 <<< e.index.val

/-- The changes that a hardfork brings or keeps. Petersburg took net metering back. -/
def ofHardfork (fork : Hardfork) : BitVec 11 :=
  (if fork = .constantinople then eip1283.flag else 0) |||
  (if fork.includes .istanbul then eip1344.flag ||| eip1884.flag ||| eip2200.flag else 0) |||
  (if fork.includes .berlin then eip2929.flag else 0) |||
  (if fork.includes .london then eip3198.flag ||| eip3529.flag ||| eip3541.flag else 0) |||
  (if fork.includes .shanghai then eip3651.flag ||| eip3855.flag ||| eip3860.flag else 0)

end Eip

/-- A hardfork and the set of changes in force, one bit per change. -/
structure Rules where
  hardfork : Hardfork
  eips : BitVec 11
  deriving DecidableEq, Repr

structure UnsupportedEip where
  number : Nat
  deriving DecidableEq, Repr

def UnsupportedEip.message (e : UnsupportedEip) : String :=
  "EIP-" ++ toString e.number ++ " can not be enabled individually"

namespace Rules

def ofHardfork (fork : Hardfork) : Rules := ⟨fork, Eip.ofHardfork fork⟩

def has (r : Rules) (e : Eip) : Bool := r.eips.getLsbD e.index.val

def enable (r : Rules) (e : Eip) : Rules := { r with eips := r.eips ||| e.flag }

def enableAll (r : Rules) : List Nat → Except UnsupportedEip Rules
  | [] => .ok r
  | n :: rest =>
    match Eip.ofNumber? n with
    | some e => (r.enable e).enableAll rest
    | none => .error ⟨n⟩

def since (r : Rules) (fork : Hardfork) : Bool := r.hardfork.includes fork

/-- Whether a storage write is refused when little gas is left. -/
def hasSentry (r : Rules) : Bool := r.has .eip2200 || r.has .eip2929

def refundQuotient (r : Rules) : Nat := if r.has .eip3529 then 5 else 2

theorem has_enable (r : Rules) (e e' : Eip) :
    (r.enable e).has e' = (r.has e' || decide (e = e')) := by
  have : e.flag.getLsbD e'.index.val = decide (e = e') := by
    cases e <;> cases e' <;> decide
  simp only [has, enable, BitVec.getLsbD_or, this]

end Rules

end MeteredVM
