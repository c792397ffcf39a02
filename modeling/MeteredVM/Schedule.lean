import MeteredVM.Rules

namespace MeteredVM

inductive Activation where
  /-- At and after a block number. -/
  | block (number : Nat)
  | timestamp (time : Nat)
  deriving DecidableEq, Repr

def Activation.reached (a : Activation) (number time : Nat) : Bool :=
  match a with
  | .block n => decide (n ≤ number)
  | .timestamp t => decide (t ≤ time)

/-- Activations in ascending order; of two with the same moment the later entry wins. -/
structure Schedule where
  entries : List (Hardfork × Activation)
  deriving DecidableEq, Repr

namespace Schedule

def mainnet : Schedule :=
  ⟨[(.frontier, .block 0),
    (.frontierThawing, .block 200000),
    (.homestead, .block 1150000),
    (.daoFork, .block 1920000),
    (.tangerine, .block 2463000),
    (.spuriousDragon, .block 2675000),
    (.byzantium, .block 4370000),
    (.constantinople, .block 7280000),
    (.petersburg, .block 7280000),
    (.istanbul, .block 9069000),
    (.muirGlacier, .block 9200000),
    (.berlin, .block 12244000),
    (.london, .block 12965000),
    (.arrowGlacier, .block 13773000),
    (.grayGlacier, .block 15050000),
    (.merge, .block 15537394),
    (.shanghai, .timestamp 1681338455)]⟩

def withFork (s : Schedule) (fork : Hardfork) (moment : Activation) : Schedule :=
  ⟨s.entries ++ [(fork, moment)]⟩

/-- The last entry of the schedule that is active at a block, Frontier if none is. -/
def hardforkAt (s : Schedule) (number time : Nat) : Hardfork :=
  match s.entries.reverse.find? (fun entry => entry.2.reached number time) with
  | some entry => entry.1
  | none => .frontier

def rulesAt (s : Schedule) (number time : Nat) : Rules := .ofHardfork (s.hardforkAt number time)

end Schedule

end MeteredVM
