import Mathlib.Algebra.Order.BigOperators.Group.Finset
import Mathlib.Data.FinEnum
import MeteredVM.Proofs.Journal.Payment

namespace MeteredVM

open Accounts

def Database.wealth (db : Database) : Nat :=
  ∑ a : Address, (db.account a).elim 0 fun info => info.balance.toNat

theorem Database.wealth_of_sole {db : Database} (a : Address) (info : AccountInfo)
    (h : ∀ b, db.account b = if b = a then some info else none) : db.wealth = info.balance.toNat := by
  rw [wealth, Finset.sum_eq_single a]
  · rw [h, if_pos rfl]
    rfl
  · intro b _ hb
    rw [h, if_neg hb]
    rfl
  · exact fun habsent => absurd (Finset.mem_univ a) habsent

namespace Journal

theorem fresh_balance (db : Database) (a : Address) :
    (fresh db a).info.balance.toNat =
      (db.account a).elim 0 fun info => info.balance.toNat := by
  unfold fresh
  cases db.account a with
  | none => rfl
  | some info => rfl

variable (db : Database) {j k : Journal} {a : Address} {x : Account}

def wealth (j : Journal) : Nat := ∑ a : Address, (j.view db a).balance.toNat

variable {db} in
theorem wealth_of_balance (h : ∀ a, (k.view db a).balance = (j.view db a).balance) :
    k.wealth db = j.wealth db := by
  simp only [wealth, h]

variable {db} in
theorem wealth_of_view (h : k.view db = j.view db) : k.wealth db = j.wealth db :=
  wealth_of_balance fun a => by rw [h]

theorem wealth_note (j : Journal) (e : JournalEntry) : (j.note e).wealth db = j.wealth db :=
  wealth_of_view (view_note j e)

theorem wealth_touch (j : Journal) (a : Address) : (j.touch a).wealth db = j.wealth db :=
  wealth_of_balance (balance_touch j a)

theorem wealth_update (hx : j.accounts[a]? = some x) (f : Account → Account) :
    (j.update a f).wealth db + x.info.balance.toNat =
      j.wealth db + (f x).info.balance.toNat := by
  have hothers : ∑ b ∈ Finset.univ.erase a, ((j.update a f).view db b).balance.toNat =
      ∑ b ∈ Finset.univ.erase a, (j.view db b).balance.toNat := by
    refine Finset.sum_congr rfl fun b hb => ?_
    rw [view_update hx, if_neg (Finset.ne_of_mem_erase hb).symm]
  have hbefore := Finset.add_sum_erase Finset.univ
    (fun b => (j.view db b).balance.toNat) (Finset.mem_univ a)
  have hafter := Finset.add_sum_erase Finset.univ
    (fun b => ((j.update a f).view db b).balance.toNat) (Finset.mem_univ a)
  have hold : (j.view db a).balance = x.info.balance := by
    rw [view_of_loaded hx]
    rfl
  have hnew : ((j.update a f).view db a).balance = (f x).info.balance := by
    rw [view_update hx, if_pos rfl]
    rfl
  simp only [hothers, hold, hnew] at hbefore hafter
  simp only [wealth]
  omega

theorem wealth_update_eq {f : Account → Account}
    (hf : ∀ x, (f x).info.balance = x.info.balance) :
    (j.update a f).wealth db = j.wealth db := by
  cases hx : j.accounts[a]? with
  | none => exact wealth_of_view (view_of_accounts (update_of_absent hx f))
  | some x =>
    have hupdate := wealth_update db hx f
    rw [hf x] at hupdate
    omega

theorem wealth_rebalance (ha : (j.accounts[a]?).isSome) (f : Word → Word) :
    (j.rebalance a f).wealth db + (j.view db a).balance.toNat =
      j.wealth db + (f (j.view db a).balance).toNat := by
  obtain ⟨x, hx⟩ := Option.isSome_iff_exists.mp ha
  have hbalance : (j.view db a).balance = x.info.balance := by
    rw [view_of_loaded hx]
    rfl
  rw [hbalance]
  exact wealth_update db hx _

/-- What comes in is at most what is added, modulo `2 ^ 256`. -/
theorem wealth_credit_le (j : Journal) (a : Address) (value : Word) :
    (j.rebalance a (· + value)).wealth db ≤ j.wealth db + value.toNat := by
  cases hx : j.accounts[a]? with
  | none =>
    rw [rebalance, wealth_of_view (view_of_accounts (update_of_absent hx _))]
    exact Nat.le_add_right _ _
  | some x =>
    have hwealth := wealth_rebalance db (Option.isSome_of_eq_some hx) (· + value)
    have hsum : ((j.view db a).balance + value).toNat ≤
        (j.view db a).balance.toNat + value.toNat := by
      rw [BitVec.toNat_add]
      exact Nat.mod_le _ _
    omega

variable {db} in
theorem Paid.wealth_le {source target : Address} {value : Word}
    (h : j.Paid db source target value k) : k.wealth db ≤ j.wealth db := by
  cases h with
  | free => exact Nat.le_refl _
  | moved payer payee enough =>
    have hloaded : (((j.touch source).touch target).accounts[source]?).isSome := by
      rwa [loaded_touch, loaded_touch]
    have hdebit := wealth_rebalance db hloaded (· - value)
    have hcredit := wealth_credit_le db
      (((j.touch source).touch target).rebalance source (· - value)) target value
    rw [balance_touch, balance_touch, wealth_touch, wealth_touch,
      BitVec.toNat_sub_of_le enough] at hdebit
    have hle : value.toNat ≤ (j.view db source).balance.toNat := enough
    rw [Journal.moved, wealth_note]
    omega

theorem wealth_emptied (hx : j.accounts[a]? = some x) :
    (j.emptied a).wealth db + x.info.balance.toNat = j.wealth db := by
  have hzero : (0 : Word).toNat = 0 := rfl
  have hwealth : (j.emptied a).wealth db + x.info.balance.toNat =
      j.wealth db + (0 : Word).toNat := wealth_update db hx _
  rwa [hzero, Nat.add_zero] at hwealth

theorem wealth_destroy_le (hx : j.accounts[a]? = some x) (target : Address) :
    (j.destroy a target x).wealth db ≤ j.wealth db := by
  have hemptied := wealth_emptied db hx
  by_cases hat : a = target
  · subst hat
    rw [destroy_self, wealth_note]
    omega
  · have hcredit := wealth_credit_le db ((j.emptied a).touch target) target x.info.balance
    rw [wealth_touch] at hcredit
    rw [destroy_of_ne j hat, wealth_note]
    omega

theorem wealth_ofHardfork (db : Database) (fork : Hardfork) :
    (ofHardfork fork).wealth db = db.wealth := by
  refine Finset.sum_congr rfl fun a _ => ?_
  rw [view_ofHardfork]
  exact fresh_balance db a

variable {db} in
/-- While all balances together are less than `2 ^ 256`, nobody receives too much. -/
theorem payable_of_wealth (h : j.wealth db < 2 ^ 256) (source target : Address) (value : Word) :
    j.Payable db source target value := by
  intro hne hle
  have hpair : ∑ a ∈ ({source, target} : Finset Address), (j.view db a).balance.toNat ≤
      j.wealth db :=
    Finset.sum_le_sum_of_subset (Finset.subset_univ _)
  rw [Finset.sum_pair hne] at hpair
  have hvalue : value.toNat ≤ (j.view db source).balance.toNat := hle
  rw [BitVec.uaddOverflow, decide_eq_false_iff_not]
  omega

end Journal

end MeteredVM
