import MeteredVM.Proofs.Journal.View
import MeteredVM.Transfer

namespace MeteredVM

open Accounts

namespace Journal

variable {db : Database} {j k : Journal} {source target : Address} {value : Word}

def Payable (db : Database) (j : Journal) (source target : Address) (value : Word) : Prop :=
  source ≠ target → value ≤ (j.view db source).balance →
    (j.view db target).balance.uaddOverflow value = false

theorem Payable.of_view (h : j.Payable db source target value)
    (hv : ∀ a, (k.view db a).balance = (j.view db a).balance) :
    k.Payable db source target value := by
  intro hne hle
  rw [hv] at hle ⊢
  exact h hne hle

theorem payable_self (db : Database) (j : Journal) (a : Address) (value : Word) :
    j.Payable db a a value :=
  fun h => absurd rfl h

theorem payable_zero (db : Database) (j : Journal) (source target : Address) :
    j.Payable db source target 0 := by
  intro _ _
  have hzero : (0 : Word).toNat = 0 := rfl
  rw [BitVec.uaddOverflow, decide_eq_false_iff_not, hzero]
  have hlt := (j.view db target).balance.isLt
  omega

theorem untouched_touch (j : Journal) (a b : Address) :
    ((j.touch a).view db b).untouched = (j.view db b).untouched := by
  rw [view_touch]
  split <;> rfl

theorem balance_touch (j : Journal) (a b : Address) :
    ((j.touch a).view db b).balance = (j.view db b).balance := by
  rw [view_touch]
  split <;> rfl

theorem balance?_of_loaded (db : Database) {a : Address} (ha : (j.accounts[a]?).isSome) :
    j.balance? a = some (j.view db a).balance := by
  obtain ⟨x, hx⟩ := Option.isSome_iff_exists.mp ha
  rw [view_of_loaded hx, balance?, hx]
  rfl

inductive Paid (db : Database) (j : Journal) (source target : Address) (value : Word) :
    Journal → Prop
  | free : Paid db j source target value j
  | moved (payer : (j.accounts[source]?).isSome) (payee : (j.accounts[target]?).isSome)
      (enough : value ≤ (j.view db source).balance) :
      Paid db j source target value (j.moved source target value)

theorem Paid.extends (h : Paid db j source target value k) : j.Extends k := by
  cases h with
  | free => exact .refl j
  | moved payer payee enough => exact moved_extends j source target value

def paidBalance (source target : Address) (value : Word) (a : Address) (balance : Word) : Word :=
  let left := if source = a then balance - value else balance
  if target = a then left + value else left

theorem view_moved (hs : (j.accounts[source]?).isSome) (ht : (j.accounts[target]?).isSome)
    (value : Word) (a : Address) :
    ((j.moved source target value).view db a).untouched =
      { (j.view db a).untouched with
        balance := paidBalance source target value a (j.view db a).balance } := by
  have htouched : (((j.touch source).touch target).view db a).untouched =
      (j.view db a).untouched := by
    rw [untouched_touch, untouched_touch]
  have hbalance : (((j.touch source).touch target).view db a).balance = (j.view db a).balance := by
    rw [balance_touch, balance_touch]
  rw [moved, view_note, view_rebalance, view_rebalance, ← htouched, ← hbalance, paidBalance]
  · dsimp only
    split <;> split <;> rfl
  · rwa [loaded_touch, loaded_touch]
  · rwa [rebalance, update, loaded_modify, loaded_touch, loaded_touch]

end Journal

def TransferPolicy.Sound (p : TransferPolicy) : Prop := p = .balances ∨ p = .free

theorem TransferPolicy.Sound.move {p : TransferPolicy} {db : Database} {j : Journal}
    {source target : Address} {value : Word} (hp : p.Sound)
    (hs : (j.accounts[source]?).isSome) (ht : (j.accounts[target]?).isSome)
    (hpay : j.Payable db source target value) :
    Ends (p.move source target value) j (fun _ k => k = j.touch source)
      fun _ k => j.Paid db source target value k := by
  obtain rfl | rfl := hp
  · have hmove := Journal.transfer_loaded (Journal.balance?_of_loaded db hs)
      (Journal.balance?_of_loaded db ht) value
    have htransfer : TransferPolicy.balances.move source target value =
        Journal.transfer source target value := rfl
    rw [htransfer]
    unfold Ends
    by_cases hlt : (j.view db source).balance < value
    · rw [if_pos hlt] at hmove
      rw [hmove]
    · rw [if_neg hlt] at hmove
      have hle : value ≤ (j.view db source).balance := BitVec.not_lt.mp hlt
      have hroom : ¬(source ≠ target ∧ (j.view db target).balance.uaddOverflow value = true) := by
        rintro ⟨hne, hover⟩
        rw [hpay hne hle] at hover
        cases hover
      rw [if_neg hroom] at hmove
      rw [hmove]
      exact .moved hs ht hle
  · exact .free

theorem TransferPolicy.le_of_allows {j : Journal} {source : Address} {value : Word} (db : Database)
    (h : balances.allows j source value = true) : value ≤ (j.view db source).balance := by
  obtain hzero | hfunds := Bool.or_eq_true_iff.mp h
  · rw [beq_iff_eq.mp hzero]
    exact Nat.zero_le _
  · obtain ⟨funds, hbalance, hle⟩ := (Option.any_eq_true _ _).mp hfunds
    obtain ⟨x, hx, rfl⟩ := Option.map_eq_some_iff.mp hbalance
    rw [Journal.view_of_loaded hx]
    exact of_decide_eq_true hle

/-- A payment that was allowed is made, if the payer still has as much and the receiver has room. -/
theorem TransferPolicy.Sound.pays {p : TransferPolicy} {db : Database} {i j : Journal}
    {source target : Address} {value : Word} (hp : p.Sound)
    (hs : (j.accounts[source]?).isSome) (ht : (j.accounts[target]?).isSome)
    (hpay : j.Payable db source target value) (allowed : p.allows i source value = true)
    (same : (j.view db source).balance = (i.view db source).balance) :
    ∃ k, p.move source target value j = .ok () k := by
  obtain rfl | rfl := hp
  · have hmove := Journal.transfer_loaded (Journal.balance?_of_loaded db hs)
      (Journal.balance?_of_loaded db ht) value
    have hle : value ≤ (j.view db source).balance := same ▸ le_of_allows db allowed
    rw [if_neg (BitVec.not_lt.mpr hle), if_neg] at hmove
    · exact ⟨_, hmove⟩
    · rintro ⟨hne, hover⟩
      rw [hpay hne hle] at hover
      cases hover
  · exact ⟨j, rfl⟩

end MeteredVM
