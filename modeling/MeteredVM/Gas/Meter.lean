import MeteredVM.Gas.Price
import MeteredVM.Status

namespace MeteredVM

namespace Price

def maxMemory : Nat := 0x1FFFFFFFE0

/-- The price of a memory of a number of words, clamped at each step to 64 bits. -/
def memory (words : Nat) : Nat :=
  Amount.addClamped (Amount.mulClamped 3 words) (Amount.mulClamped words words / 512)

structure Growth where
  words : Nat
  price : Nat
  deriving DecidableEq, Repr

/-- What it takes to make `size` bytes addressable when `paid` has been paid for memory so far;
nothing if no growth is needed. A size past the limit is refused. -/
def growth (paid size : Nat) : Except Status (Option Growth) :=
  if size > maxMemory then .error .gasOverflow
  else if memory (words size) ≤ paid then .ok none
  else .ok (some ⟨words size, memory (words size) - paid⟩)

end Price

structure Gas where
  limit : Nat
  remaining : Nat
  /-- The memory paid for, in words. -/
  words : Nat
  /-- What memory has cost so far. -/
  memoryPaid : Nat
  deriving DecidableEq, Repr, Inhabited

namespace Gas

def ofLimit (limit : Nat) : Gas := ⟨limit, limit, 0, 0⟩

def spent (g : Gas) : Except Fault Nat := Amount.sub g.limit g.remaining

def giveBack (g : Gas) (returned : Nat) : Except Fault Gas :=
  (Amount.add g.remaining returned).map fun r => { g with remaining := r }

def exhaust (g : Gas) : Gas := { g with remaining := 0 }

def charge? (g : Gas) (cost : Nat) : Option Gas :=
  if cost ≤ g.remaining then some { g with remaining := g.remaining - cost } else none

/-- Pays for making `len` bytes from `offset` on addressable. Gives the new length of memory in
bytes if it grows, and charges nothing on failure. -/
def payMemory (g : Gas) (offset len : Nat) : Except Status (Option Nat × Gas) :=
  if len = 0 then .ok (none, g)
  else if offset + len > Amount.max then .error .gasOverflow
  else
    match Price.growth g.memoryPaid (offset + len) with
    | .error status => .error status
    | .ok none => .ok (none, g)
    | .ok (some growth) =>
      match g.charge? growth.price with
      | none => .error .memoryOutOfGas
      | some paid =>
        .ok (some (growth.words * 32),
          { paid with words := growth.words, memoryPaid := Price.memory growth.words })

end Gas

end MeteredVM
