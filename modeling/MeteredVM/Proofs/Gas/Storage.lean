import Mathlib.Algebra.BigOperators.Group.List.Basic
import Mathlib.Tactic.Ring
import MeteredVM.Gas.Price
import MeteredVM.Gas.Storage

namespace MeteredVM

namespace Price

def held (clear : Int) (initial value : Word) : Int :=
  if initial ≠ 0 ∧ value = 0 then clear else 0

/-- What has been charged for a slot that is not as it was initially, above the price of touching
it. -/
def premium (tier : NetTier) (initial value : Word) : Int :=
  if value = initial then 0
  else if initial = 0 then (slotSet : Int) - tier.touch
  else (tier.reset : Int) - tier.touch

def restoration (tier : NetTier) (c : SlotChange) : Int :=
  if c.new ≠ c.present ∧ c.new = c.initial then premium tier c.initial c.present else 0

/-- What writes to a slot have cost by the time it holds a value, above the price of touching it. -/
def surplus (tier : NetTier) (clear : Int) (initial value : Word) : Int :=
  if value = initial then 0
  else if initial = 0 then (slotSet : Int) - tier.touch
  else if value = 0 then (tier.reset : Int) - tier.touch - clear
  else (tier.reset : Int) - tier.touch

@[simp] theorem held_self (clear : Int) (value : Word) : held clear value value = 0 :=
  if_neg fun h => h.1 h.2

theorem surplus_eq (tier : NetTier) (clear : Int) (initial value : Word) :
    surplus tier clear initial value = premium tier initial value - held clear initial value := by
  simp only [surplus, premium, held]
  grind

/-- A write grants what the slot holds from then on, takes back what it held, and pays for a
restoration. -/
theorem netRefund_eq (tier : NetTier) (clear : Int) (c : SlotChange) :
    netRefund tier clear c =
      held clear c.initial c.new - held clear c.initial c.present + restoration tier c := by
  simp only [netRefund, held, restoration, premium]
  grind

/-- A write charges for the first change. What it charges for a restoration it pays back. -/
theorem netWrite_eq (tier : NetTier) (c : SlotChange) :
    (netWrite tier c : Int) =
      tier.touch + premium tier c.initial c.new - premium tier c.initial c.present +
        restoration tier c := by
  simp only [netWrite, restoration, premium]
  grind

theorem netWrite_sub_netRefund (tier : NetTier) (clear : Int) (c : SlotChange) :
    (netWrite tier c : Int) - netRefund tier clear c =
      tier.touch + surplus tier clear c.initial c.new - surplus tier clear c.initial c.present := by
  rw [netWrite_eq, netRefund_eq, surplus_eq, surplus_eq]
  ring

variable {r : Rules} {tier : NetTier}

theorem exists_netTier (h : r.has .eip1283 = true ∨ r.has .eip2200 = true ∨ r.has .eip2929 = true) :
    ∃ tier, netTier? r = some tier := by
  unfold netTier?
  split
  · exact ⟨_, rfl⟩
  split
  · exact ⟨_, rfl⟩
  rw [if_pos (by simp_all)]
  exact ⟨_, rfl⟩

theorem NetTier.le (h : netTier? r = some tier) : tier.touch ≤ tier.reset ∧ tier.touch ≤ slotSet := by
  unfold netTier? at h
  split at h
  · cases h
    decide
  split at h
  · cases h
    decide
  split at h
  · cases h
    decide
  · cases h

theorem premium_nonneg (h : netTier? r = some tier) (initial value : Word) :
    0 ≤ premium tier initial value := by
  obtain ⟨hreset, hset⟩ := NetTier.le h
  simp only [premium]
  split
  · exact Int.le_refl 0
  split <;> omega

theorem restoration_nonneg (h : netTier? r = some tier) (c : SlotChange) :
    0 ≤ restoration tier c := by
  unfold restoration
  split
  · exact premium_nonneg h _ _
  · exact Int.le_refl 0

theorem clearRefund_nonneg (r : Rules) : 0 ≤ clearRefund r := by
  unfold clearRefund
  split <;> decide

theorem slotRefund_eq (h : netTier? r = some tier) (c : SlotChange) :
    slotRefund r c = netRefund tier (clearRefund r) c := by
  simp only [slotRefund, h]

def mostRefund : Nat := 24000

theorem natAbs_selfDestructRefund_le : selfDestructRefund.natAbs ≤ mostRefund := by decide

theorem natAbs_netRefund_le {clear : Int} (h : netTier? r = some tier)
    (hclear : clear = 4800 ∨ clear = 15000) (c : SlotChange) :
    (netRefund tier clear c).natAbs ≤ mostRefund := by
  have htier : tier = ⟨100, 2900⟩ ∨ tier = ⟨800, 5000⟩ ∨ tier = ⟨200, 5000⟩ := by
    unfold netTier? at h
    grind
  unfold netRefund slotSet mostRefund
  obtain rfl | rfl | rfl := htier <;> grind

theorem natAbs_slotRefund_le (r : Rules) (c : SlotChange) :
    (slotRefund r c).natAbs ≤ mostRefund := by
  cases h : netTier? r with
  | some tier =>
    rw [slotRefund_eq h]
    refine natAbs_netRefund_le h ?_ c
    unfold clearRefund
    split
    · exact .inl rfl
    · exact .inr rfl
  | none =>
    simp only [slotRefund, h]
    split <;> decide

theorem slotWrite_warm (h : netTier? r = some tier) (c : SlotChange) :
    slotWrite r c false = netWrite tier c := by
  simp only [slotWrite, h, Bool.and_false, Bool.false_eq_true, if_false, Nat.add_zero]

/-- What writes to a warm slot cost together, their refunds deducted. -/
def net (r : Rules) (changes : List SlotChange) : Int :=
  ((changes.map (slotWrite r · false)).sum : Int) - (changes.map (slotRefund r)).sum

theorem net_cons (r : Rules) (c : SlotChange) (rest : List SlotChange) :
    net r (c :: rest) = (slotWrite r c false : Int) - slotRefund r c + net r rest := by
  simp only [net, List.map_cons, List.sum_cons]
  push_cast
  ring

end Price

/-- The changes that writes to a slot make one after the other. -/
def SlotChange.chain (initial present : Word) : List Word → List SlotChange
  | [] => []
  | new :: rest => ⟨initial, present, new⟩ :: chain initial new rest

/-- Each write costs a touch, and of the surpluses only the first and the last remain. -/
theorem Price.net_chain {r : Rules} {tier : NetTier} (h : netTier? r = some tier)
    (initial present : Word) (news : List Word) :
    net r (SlotChange.chain initial present news) =
      news.length * tier.touch + surplus tier (clearRefund r) initial (news.getLastD present) -
        surplus tier (clearRefund r) initial present := by
  induction news generalizing present with
  | nil => simp [net, SlotChange.chain]
  | cons new rest ih =>
    have hwrite := netWrite_sub_netRefund tier (clearRefund r) ⟨initial, present, new⟩
    rw [SlotChange.chain, net_cons, slotWrite_warm h, slotRefund_eq h, hwrite, ih new,
      List.getLastD_cons, List.length_cons]
    push_cast
    ring

end MeteredVM
