namespace MeteredVM

inductive Hardfork where
  | frontier
  | frontierThawing
  | homestead
  | daoFork
  | tangerine
  | spuriousDragon
  | byzantium
  | constantinople
  | petersburg
  | istanbul
  | muirGlacier
  | berlin
  | london
  | arrowGlacier
  | grayGlacier
  | merge
  | shanghai
  | latest
  deriving DecidableEq, Repr

namespace Hardfork

/-- The number of a hardfork; later forks have larger numbers. -/
def id : Hardfork → Nat
  | frontier => 0
  | frontierThawing => 1
  | homestead => 2
  | daoFork => 3
  | tangerine => 4
  | spuriousDragon => 5
  | byzantium => 6
  | constantinople => 7
  | petersburg => 8
  | istanbul => 9
  | muirGlacier => 10
  | berlin => 11
  | london => 12
  | arrowGlacier => 13
  | grayGlacier => 14
  | merge => 15
  | shanghai => 16
  | latest => 255

def all : List Hardfork :=
  [frontier, frontierThawing, homestead, daoFork, tangerine, spuriousDragon, byzantium,
   constantinople, petersburg, istanbul, muirGlacier, berlin, london, arrowGlacier, grayGlacier,
   merge, shanghai, latest]

def name : Hardfork → String
  | frontier => "Frontier"
  | frontierThawing => "Frontier Thawing"
  | homestead => "Homestead"
  | daoFork => "DAO Fork"
  | tangerine => "Tangerine"
  | spuriousDragon => "Spurious"
  | byzantium => "Byzantium"
  | constantinople => "Constantinople"
  | petersburg => "Petersburg"
  | istanbul => "Istanbul"
  | muirGlacier => "MuirGlacier"
  | berlin => "Berlin"
  | london => "London"
  | arrowGlacier => "Arrow Glacier"
  | grayGlacier => "Gray Glacier"
  | merge => "Merge"
  | shanghai => "Shanghai"
  | latest => "Latest"

theorem mem_all (fork : Hardfork) : fork ∈ all := by cases fork <;> decide

theorem id_injective {a b : Hardfork} (h : a.id = b.id) : a = b := by
  cases a <;> cases b <;> first | rfl | exact absurd h (by decide)

def ofId? (n : Nat) : Option Hardfork := all.find? (·.id == n)

def ofName? (s : String) : Option Hardfork := all.find? (·.name == s)

def includes (fork other : Hardfork) : Bool := decide (other.id ≤ fork.id)

def unknownMessage : String := "unknown hardfork name"

end Hardfork

end MeteredVM
