import MeteredVM.Proofs.Journal.Change

namespace MeteredVM

open Accounts Relation

@[ext] structure AccountView where
  balance : Word
  nonce : Nat
  codeHash : Hash
  /-- The present value of every slot. -/
  slots : Word → Word
  created : Bool
  destroyed : Bool
  touched : Bool

def AccountView.untouched (v : AccountView) : AccountView := { v with touched := false }

/-- The values of a loaded account. A slot that is not loaded is zero if the account was created in
the transaction, else it has the value of the database. -/
def Account.view (db : Database) (a : Address) (x : Account) : AccountView where
  balance := x.info.balance
  nonce := x.info.nonce
  codeHash := x.info.codeHash
  slots key := x.slots[key]?.getD (Journal.unloaded db a x key)
  created := x.flags.created
  destroyed := x.flags.destroyed
  touched := x.flags.touched

namespace Journal

def view (db : Database) (j : Journal) (a : Address) : AccountView :=
  (j.accounts[a]?.getD (fresh db a)).view db a

variable {db : Database} {j k : Journal} {a b : Address} {x : Account}

theorem view_of_loaded (hx : j.accounts[a]? = some x) : j.view db a = x.view db a := by
  simp only [view, hx, Option.getD_some]

theorem view_of_absent (hx : j.accounts[a]? = none) : j.view db a = (fresh db a).view db a := by
  simp only [view, hx, Option.getD_none]

theorem view_ofHardfork (db : Database) (fork : Hardfork) (a : Address) :
    (ofHardfork fork).view db a = (fresh db a).view db a :=
  view_of_absent Std.ExtTreeMap.getElem?_empty

theorem view_of_accounts (h : k.accounts = j.accounts) : k.view db = j.view db := by
  funext a
  simp only [view, h]

theorem view_of_look (h : look k.accounts a = look j.accounts a) : k.view db a = j.view db a := by
  have hview : ∀ i : Journal, i.view db a = ((look i.accounts a).getD (fresh db a).bare).view db a := by
    intro i
    simp only [Journal.view, look]
    cases i.accounts[a]? <;> rfl
  rw [hview, hview, h]

theorem view_of_alike (h : Alike k.accounts j.accounts) : k.view db = j.view db :=
  funext fun a => view_of_look (h a)

theorem Same.view (h : k.Same j) : k.view db = j.view db := view_of_alike h.accounts

theorem view_note (j : Journal) (e : JournalEntry) : (j.note e).view db = j.view db :=
  view_of_accounts rfl

theorem commit_eq_ok (h : j.commit = .ok k) : k = { j with depth := j.depth - 1 } := by
  unfold commit at h
  split at h
  · cases h
  · exact (Except.ok.inj h).symm

theorem view_update (hx : j.accounts[a]? = some x) (f : Account → Account) (b : Address) :
    (j.update a f).view db b = if a = b then (f x).view db a else j.view db b := by
  simp only [view, update, getElem?_modify]
  split
  · rename_i hab
    subst hab
    simp only [hx, Option.map_some, Option.getD_some]
  · rfl

theorem update_of_absent (hx : j.accounts[a]? = none) (f : Account → Account) :
    (j.update a f).accounts = j.accounts := by
  apply modify_eq_self _ _
  intro y hy
  rw [hx] at hy
  cases hy

theorem Look.view (h : Look db j k) : k.view db = j.view db := by
  cases h with
  | ask l => rfl
  | @account a absent =>
    funext b
    simp only [Journal.view, note, Std.ExtTreeMap.getElem?_insert,
      Std.LawfulEqCmp.compare_eq_iff_eq]
    split
    · rename_i hab
      subst hab
      simp only [absent, Option.getD_some, Option.getD_none]
    · rfl
  | code loaded unfetched =>
    exact view_of_alike (alike_modify_self _ _ fun _ _ => rfl)
  | @slot a x key loaded absent =>
    funext b
    refine (view_update loaded (fun y =>
      { y with slots := y.slots.insert key (unloaded db a x key) }) b).trans ?_
    split
    · rename_i hab
      subst hab
      rw [view_of_loaded loaded]
      ext key'
      · rfl
      · rfl
      · rfl
      · simp only [Account.view, Std.ExtTreeMap.getElem?_insert,
          Std.LawfulEqCmp.compare_eq_iff_eq]
        split
        · rename_i hk
          subst hk
          simp only [absent, Option.getD_some, Option.getD_none]
        · rfl
      · rfl
      · rfl
      · rfl
    · rfl

theorem Looks.view (h : Looks db j k) : k.view db = j.view db := by
  induction h with
  | refl => rfl
  | tail _ h ih => rw [h.view, ih]

theorem Look.others (h : Look db j k) :
    k.hardfork = j.hardfork ∧ k.logs = j.logs ∧ k.refund = j.refund := by
  cases h with
  | ask l => exact ⟨rfl, rfl, rfl⟩
  | account absent => exact ⟨rfl, rfl, rfl⟩
  | code loaded unfetched => exact ⟨rfl, rfl, rfl⟩
  | slot loaded absent => exact ⟨rfl, rfl, rfl⟩

theorem Looks.others (h : Looks db j k) :
    k.hardfork = j.hardfork ∧ k.logs = j.logs ∧ k.refund = j.refund := by
  induction h with
  | refl => exact ⟨rfl, rfl, rfl⟩
  | tail _ h ih =>
    obtain ⟨hf, hl, hr⟩ := h.others
    exact ⟨hf.trans ih.1, hl.trans ih.2.1, hr.trans ih.2.2⟩

theorem loaded_touch (j : Journal) (a b : Address) :
    ((j.touch a).accounts[b]?).isSome = (j.accounts[b]?).isSome := by
  rw [touch_accounts, loaded_modify]

theorem view_touch (j : Journal) (a b : Address) :
    (j.touch a).view db b =
      if a = b ∧ (j.accounts[a]?).isSome then { j.view db b with touched := true }
      else j.view db b := by
  have hview : (j.touch a).view db = (j.update a fun x =>
      { x with flags := { x.flags with touched := true } }).view db :=
    view_of_accounts (touch_accounts j a)
  rw [hview]
  cases hx : j.accounts[a]? with
  | none =>
    simp only [Option.isSome_none, Bool.false_eq_true, and_false, if_false]
    rw [view_of_accounts (update_of_absent hx _)]
  | some x =>
    rw [view_update hx]
    simp only [Option.isSome_some, and_true]
    split
    · rename_i hab
      subst hab
      rw [view_of_loaded hx]
      rfl
    · rfl

theorem touched_loaded (hx : j.accounts[a]? = some x) :
    (j.touch a).accounts[a]? = some { x with flags := { x.flags with touched := true } } := by
  rw [touch_accounts, getElem?_modify, if_pos rfl, hx]
  rfl

theorem view_raised (hx : j.accounts[a]? = some x) (b : Address) :
    (j.raised a).view db b =
      if a = b then { j.view db b with nonce := (j.view db b).nonce + 1, touched := true }
      else j.view db b := by
  have htouched : ((j.touch a).note (.nonceRaised a)).accounts[a]? = _ := touched_loaded hx
  rw [raised, view_update htouched, view_note, view_touch]
  split
  · rename_i hab
    subst hab
    rw [view_of_loaded hx]
    rfl
  · rename_i hab
    rw [if_neg fun h => hab h.1]

theorem view_raiseNonce {n : Nat} (h : j.raiseNonce a = some (n, k)) (b : Address) :
    n = (j.view db a).nonce + 1 ∧
      k.view db b =
        if a = b then { j.view db b with nonce := (j.view db b).nonce + 1, touched := true }
        else j.view db b := by
  obtain ⟨rfl, x, hx, rfl⟩ := raiseNonce_eq_some h
  refine ⟨?_, view_raised hx b⟩
  rw [view_of_loaded hx]
  rfl

theorem view_rebalance (ha : (j.accounts[a]?).isSome) (f : Word → Word) (b : Address) :
    (j.rebalance a f).view db b =
      if a = b then { j.view db b with balance := f (j.view db b).balance } else j.view db b := by
  obtain ⟨x, hx⟩ := Option.isSome_iff_exists.mp ha
  rw [rebalance, view_update hx]
  split
  · rename_i hab
    subst hab
    rw [view_of_loaded hx]
    rfl
  · rfl

end Journal

end MeteredVM
