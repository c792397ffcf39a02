import MeteredVM.Word
import Std.Data.ExtTreeMap

/-!
The ledger of initial slot values. The first value recorded for a slot stays until the ledger
is emptied at the end of a transaction.
-/

namespace MeteredVM

structure SlotId where
  address : Address
  key : Word
  deriving DecidableEq, Repr

namespace SlotId

def order : SlotId → SlotId → Ordering := compareLex (compareOn address) (compareOn key)

instance : Std.TransCmp order := by unfold order; infer_instance

instance : Std.LawfulEqCmp order where
  eq_of_compare {a b} h := by
    obtain ⟨address, key⟩ := a
    obtain ⟨address', key'⟩ := b
    simp only [order, compareLex, compareOn, Ordering.then_eq_eq] at h
    rw [Std.LawfulEqOrd.eq_of_compare h.1, Std.LawfulEqOrd.eq_of_compare h.2]

end SlotId

structure Ledger where
  initials : Std.ExtTreeMap SlotId Word SlotId.order
  deriving DecidableEq

namespace Ledger

def empty : Ledger := ⟨∅⟩

instance : Inhabited Ledger := ⟨empty⟩

def record (l : Ledger) (slot : SlotId) (value : Word) : Ledger :=
  ⟨l.initials.insertIfNew slot value⟩

def initial? (l : Ledger) (slot : SlotId) : Option Word := l.initials[slot]?

def size (l : Ledger) : Nat := l.initials.size

@[simp] theorem initial?_empty (slot : SlotId) : empty.initial? slot = none := by
  simp [initial?, empty]

theorem initial?_record (l : Ledger) (slot slot' : SlotId) (value : Word) :
    (l.record slot value).initial? slot' =
      if slot = slot' then some ((l.initial? slot).getD value) else l.initial? slot' := by
  simp only [initial?, record, Std.ExtTreeMap.getElem?_insertIfNew, Std.LawfulEqCmp.compare_eq_iff_eq]
  by_cases h : slot = slot'
  · subst h
    by_cases hm : slot ∈ l.initials
    · simp [hm]
    · simp [hm]
  · simp [h]

end Ledger

end MeteredVM
