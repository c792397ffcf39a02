import MeteredVM.Proofs.Journal.Change

namespace MeteredVM

namespace Accounts

theorem modify_swap (m : Accounts) (b c : Address) {f g : Account → Account}
    (h : ∀ x, g (f x) = f (g x)) :
    (m.modify b f).modify c g = (m.modify c g).modify b f := by
  by_cases hbc : b = c
  · subst hbc
    simp only [modify_modify, h]
  · exact modify_comm m hbc f g

theorem erase_modify (m : Accounts) (b c : Address) (f : Account → Account) :
    (m.modify b f).erase c = (m.erase c).modify b f := by
  apply Std.ExtTreeMap.ext_getElem?
  intro a
  simp only [Std.ExtTreeMap.getElem?_erase, Std.LawfulEqCmp.compare_eq_iff_eq, getElem?_modify]
  by_cases hb : b = a
  · subst hb
    simp only [if_true]
    split <;> rfl
  · simp only [hb, if_false]

def debit (m : Accounts) (a : Address) (value : Word) : Accounts :=
  m.modify a fun x => { x with info := { x.info with balance := x.info.balance - value } }

end Accounts

namespace Journal

open Accounts

variable {j k : Journal} {mark : Checkpoint}

theorem debit_nonce (m : Accounts) (a b : Address) (value : Word) :
    (debit m a value)[b]?.map (·.info.nonce) = m[b]?.map (·.info.nonce) := by
  rw [debit, getElem?_modify]
  split
  · rename_i hab
    subst hab
    rw [Option.map_map]
    rfl
  · rfl

/-- Value that left an account without an entry does not matter to what is undone. -/
theorem undo_debit (m : Accounts) (a : Address) (value : Word) (e : JournalEntry) :
    undo (debit m a value) e = (undo m e).map (debit · a value) := by
  have hcomm (x y z : Word) : x - y + z = x + z - y := by rw [BitVec.sub_add_comm]
  have hsub (x y z : Word) : x - y - z = x - z - y := by
    rw [BitVec.sub_eq_add_neg, hcomm, BitVec.sub_eq_add_neg x z]
  cases e with
  | loaded b => exact congrArg Except.ok (erase_modify m a b _)
  | touched b | created b | slotChanged b key before | codeSet b =>
    exact congrArg Except.ok (modify_swap m a b fun _ => rfl)
  | transferred source target amount =>
    simp only [undo, debit, Except.map]
    rw [modify_swap m a source, modify_swap _ a target]
    · intro x
      simp only [hsub]
    · intro x
      simp only [hcomm]
  | destroyed b target before amount =>
    have hrefunded := modify_swap m a b
      (f := fun x => { x with info := { x.info with balance := x.info.balance - value } })
      (g := fun x =>
        { x with
          flags := { x.flags with destroyed := before }
          info := { x.info with balance := x.info.balance + amount } })
      fun x => by simp only [hcomm]
    simp only [undo, debit, Except.map, hrefunded]
    split
    · rfl
    · rw [modify_swap _ a target]
      intro x
      simp only [hsub]
  | nonceRaised b =>
    -- The nonce is looked at, but the debit leaves it alone.
    have hnonce := debit_nonce m a b value
    simp only [undo]
    cases hm : m[b]? with
    | none =>
      have hd : (debit m a value)[b]? = none := by simpa [hm] using hnonce
      rw [hd]
      rfl
    | some x =>
      obtain ⟨y, hy, hyx⟩ : ∃ y, (debit m a value)[b]? = some y ∧ y.info.nonce = x.info.nonce := by
        simpa [hm] using hnonce
      simp only [hy, hyx]
      split
      · rfl
      · exact congrArg Except.ok (modify_swap m a b fun _ => rfl)

theorem undoAll_debit (m : Accounts) (a : Address) (value : Word) (es : List JournalEntry) :
    undoAll (debit m a value) es = (undoAll m es).map (debit · a value) := by
  induction es generalizing m with
  | nil => rfl
  | cons e es ih =>
    simp only [undoAll, undo_debit]
    cases undo m e with
    | error fault => rfl
    | ok n => exact ih n

/-- Going back to a checkpoint does not give back what has left an account without an entry. -/
theorem revert_debited (j : Journal) (a : Address) (value : Word) (mark : Checkpoint) :
    (j.rebalance a (· - value)).revert mark =
      (j.revert mark).map (·.rebalance a (· - value)) := by
  let newer := j.entries.take (j.entries.length - mark.entries)
  have haccounts : (j.rebalance a (· - value)).accounts = debit j.accounts a value := rfl
  have hundo : undoAll (debit j.accounts a value) newer =
      (undoAll j.accounts newer).map (debit · a value) := undoAll_debit _ a value newer
  simp only [Journal.revert, haccounts]
  simp only [rebalance, update]
  by_cases hd : j.depth = 0
  · simp [hd, Except.map]
  by_cases hm : j.entries.length < mark.entries
  · simp [hd, hm, Except.map]
  · simp only [hd, hm, if_false]
    rw [hundo]
    cases undoAll j.accounts newer <;> rfl

/-- That an account was touched is undone at every earlier checkpoint. -/
theorem revert_touched (a : Address) (h : mark.entries ≤ j.entries.length) :
    (j.touch a).revert mark = j.revert mark := by
  unfold touch
  split
  · rename_i x hx
    split
    · rfl
    · rename_i ht
      have hundo : undo (j.accounts.modify a fun x =>
          { x with flags := { x.flags with touched := true } }) (.touched a) = .ok j.accounts := by
        simp only [undo, modify_modify]
        rw [modify_eq_self]
        intro y hy
        rw [hx] at hy
        cases hy
        simp only [Bool.not_eq_true] at ht
        simp [← ht]
      have hlength : j.entries.length + 1 - mark.entries =
          j.entries.length - mark.entries + 1 := by omega
      have hlt : ¬ j.entries.length + 1 < mark.entries := by omega
      have hlt' : ¬ j.entries.length < mark.entries := by omega
      simp only [Journal.revert, note, update, List.length_cons, hlength, List.take_succ_cons,
        List.drop_succ_cons, undoAll, hundo, hlt, hlt']
      rfl
  · rfl

def unpaid (j : Journal) (source target : Address) (value : Word) : Journal :=
  ((j.touch source).touch target).rebalance source (· - value)

theorem unpaid_balance? (j : Journal) (source target : Address) (value : Word) (a : Address) :
    (j.unpaid source target value).balance? a =
      if source = a then (j.balance? a).map (· - value) else j.balance? a := by
  rw [unpaid, rebalance_balance?, touch_balance?, touch_balance?]

theorem unpaid_revert (source target : Address) (value : Word)
    (h : mark.entries ≤ j.entries.length) :
    (j.unpaid source target value).revert mark =
      (j.revert mark).map (·.rebalance source (· - value)) := by
  have hlength : mark.entries ≤ (j.touch source).entries.length := by
    obtain ⟨newer, _, hentries, -⟩ := (touch_extends j source).entries
    rw [hentries, List.length_append]
    omega
  rw [unpaid, revert_debited, revert_touched target hlength, revert_touched source h]

/-- Only two things refuse a transfer between loaded accounts. -/
theorem transfer_eq_error {source target : Address} {value funds held : Word} {e : Status}
    (hs : j.balance? source = some funds) (ht : j.balance? target = some held)
    (h : Journal.transfer source target value j = .error e k) :
    (funds < value ∧ e = .outOfFunds ∧ k = j.touch source) ∨
      (value ≤ funds ∧ source ≠ target ∧ held.uaddOverflow value = true ∧
        e = .balanceOverflow ∧ k = j.unpaid source target value) := by
  have hloaded := transfer_loaded hs ht value
  by_cases hf : funds < value
  · rw [if_pos hf, h] at hloaded
    cases hloaded
    exact .inl ⟨hf, rfl, rfl⟩
  · rw [if_neg hf] at hloaded
    by_cases ho : source ≠ target ∧ held.uaddOverflow value = true
    · have hpaid : (j.touch source).setBalance source (funds - value) =
          (j.touch source).rebalance source (· - value) := by
        apply setBalance_eq_rebalance (f := (· - value))
        rw [touch_balance?, hs]
      rw [transfer_eq, hs] at h
      simp only [hf, if_false, hpaid, rebalance_balance?, touch_balance?, ht, ho.1, ho.2, if_true,
        touch_rebalance] at h
      cases h
      exact .inr ⟨BitVec.not_lt.mp hf, ho.1, ho.2, rfl, rfl⟩
    · rw [if_neg ho, h] at hloaded
      cases hloaded

/-- What a transfer between loaded accounts leaves if it is refused. A payer that has too little
keeps what it has, and going back to a checkpoint is as good as from where the transfer began. If
the receiver has too much, the payer, another account, has lost the value, and misses it at every
checkpoint that the journal goes back to. -/
theorem refused_transfer_leaves {source target : Address} {value : Word} {e : Status}
    (hsource : (j.accounts[source]?).isSome) (htarget : (j.accounts[target]?).isSome)
    (h : Journal.transfer source target value j = .error e k) :
    (e = .outOfFunds ∧ (∀ a, k.balance? a = j.balance? a) ∧
      ∀ mark : Checkpoint, mark.entries ≤ j.entries.length → k.revert mark = j.revert mark) ∨
    (e = .balanceOverflow ∧ source ≠ target ∧ value ≠ 0 ∧
      (∀ a, k.balance? a =
        if source = a then (j.balance? a).map (· - value) else j.balance? a) ∧
      ∀ mark : Checkpoint, mark.entries ≤ j.entries.length →
        k.revert mark = (j.revert mark).map (·.rebalance source (· - value))) := by
  obtain ⟨x, hx⟩ := Option.isSome_iff_exists.mp hsource
  obtain ⟨y, hy⟩ := Option.isSome_iff_exists.mp htarget
  have hs : j.balance? source = some x.info.balance := by rw [balance?, hx, Option.map_some]
  have ht : j.balance? target = some y.info.balance := by rw [balance?, hy, Option.map_some]
  obtain ⟨-, rfl, rfl⟩ | ⟨-, hne, hover, rfl, rfl⟩ := transfer_eq_error hs ht h
  · exact .inl ⟨rfl, touch_balance? j source, fun _ => revert_touched source⟩
  · have hvalue : value ≠ 0 := by
      rintro rfl
      have hlt := y.info.balance.isLt
      simp [BitVec.uaddOverflow] at hover
      omega
    exact .inr ⟨rfl, hne, hvalue, unpaid_balance? j source target value,
      fun _ => unpaid_revert source target value⟩

end Journal

def Database.hoard : Database :=
  { Database.empty with
    account := fun a =>
      if a = 1 then some { balance := 5 } else if a = 2 then some { balance := -1 } else none }

def Journal.hoarding : Journal :=
  leftBy (loadAccount .hoard 2) (leftBy (loadAccount .hoard 1) (ofHardfork .london))

theorem Journal.refused_transfer_leaves_unpaid :
    ∃ k, transfer 1 2 1 hoarding.deeper = .error .balanceOverflow k ∧
      k.revert hoarding.mark = (hoarding.deeper.revert hoarding.mark).map (·.rebalance 1 (· - 1)) := by
  have hrefused : errorOf? (transfer 1 2 1) hoarding.deeper = some .balanceOverflow := by decide
  cases h : transfer 1 2 1 hoarding.deeper with
  | ok _ k =>
    rw [errorOf?, h] at hrefused
    cases hrefused
  | error e k =>
    rw [errorOf?, h] at hrefused
    cases hrefused
    obtain ⟨hfunds, -⟩ | ⟨-, -, -, -, hrevert⟩ := refused_transfer_leaves (by decide) (by decide) h
    · cases hfunds
    · exact ⟨k, rfl, hrevert hoarding.mark (Nat.le_refl _)⟩

/-- The payment to the hoard is lost, and stays lost when the frame is undone. -/
theorem Journal.refused_payment_lost :
    errorOf? (transfer 1 2 1) hoarding.deeper = some .balanceOverflow ∧
      hoarding.balance? 1 = some 5 ∧
      (leftBy (transfer 1 2 1) hoarding.deeper).balance? 1 = some 4 ∧
      ((leftBy (transfer 1 2 1) hoarding.deeper).revert hoarding.mark).toOption.bind
        (·.balance? 1) = some 4 := by
  decide

end MeteredVM
