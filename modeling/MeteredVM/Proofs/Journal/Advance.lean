import MeteredVM.Proofs.Journal.Kempt

namespace MeteredVM

open Accounts

namespace Journal

variable {db : Database} {D E : Set (Address × Bytes)} {i j k l m : Journal} {a : Address} {x y : Account}
  {mark : Checkpoint} {source target : Address} {value : Word} {p : TransferPolicy}

structure Advances (db : Database) (j k : Journal) : Prop where
  restores : Aspect.worth.Restores j k
  genuine : Trait.genuine.Noted j k
  fetched : (Trait.fetched db).Noted j k
  touched : j.KeepsTouched k

namespace Advances

theorem of_eq (entries : k.entries = j.entries) (accounts : k.accounts = j.accounts) :
    Advances db j k :=
  ⟨.of_eq entries (by rw [accounts]), .of_eq entries accounts, .of_eq entries accounts,
    .of_accounts accounts⟩

theorem refl (j : Journal) : Advances db j j := of_eq rfl rfl

theorem trans (h : Advances db i j) (h' : Advances db j k) : Advances db i k :=
  ⟨h.restores.trans h'.restores, h.genuine.trans h'.genuine, h.fetched.trans h'.fetched,
    h.touched.trans h'.touched⟩

theorem looks (hdb : db.Candid) (h : Looks db j k) : Advances db j k :=
  ⟨.of_extends h.extends, .looks (Trait.genuine_suits db) h, .looks (Trait.fetched_suits hdb) h,
    .looks h⟩

theorem touch (j : Journal) (a : Address) : Advances db j (j.touch a) :=
  ⟨.of_extends (touch_extends j a), .touch j a, .touch j a, .touch j a⟩

theorem raised (j : Journal) (a : Address) : Advances db j (j.raised a) :=
  ⟨.of_extends (raised_extends j a), .raised j a, .raised j a, .raised j a⟩

theorem change (h : Change j k) : Advances db j k :=
  ⟨.of_extends h.extends, .change h, .change h, .change h⟩

theorem commit (committed : j.commit = .ok k) : Advances db j k := by
  rw [commit_eq_ok committed]
  exact of_eq rfl rfl

theorem create (opened : j.createCheckpoint a = .ok (mark, k)) : Advances db j.deeper k := by
  have hrestores : Aspect.worth.Restores j.deeper k := .create opened
  obtain ⟨-, rfl, -⟩ := createCheckpoint_eq_ok opened
  exact ⟨hrestores, Trait.genuine_opened j a, Trait.fetched_opened db j a, .opened j a⟩

theorem setCode (h : Advances db j m) {code : Bytes}
    (restores : Aspect.worth.Restores j (m.setCode a code)) : Advances db j (m.setCode a code) :=
  ⟨restores, h.genuine.trans (Trait.genuine_setCode m a code),
    h.fetched.trans (Trait.fetched_setCode db m a code), h.touched.trans (.setCode m a code)⟩

theorem paid (h : Paid db j source target value k) : Advances db j k := by
  cases h with
  | free => exact refl j
  | moved payer payee enough =>
    have hnoted {T : Trait} : T.Noted j (j.moved source target value) :=
      (Trait.Noted.touch j source).trans ((Trait.Noted.touch _ target).trans
        ((Trait.Noted.rebalance _ source (· - value)).trans
          ((Trait.Noted.rebalance _ target (· + value)).trans (.note _ _))))
    have htouched : j.KeepsTouched (j.moved source target value) :=
      (KeepsTouched.touch j source).trans ((KeepsTouched.touch _ target).trans
        ((KeepsTouched.rebalance _ source (· - value)).trans
          ((KeepsTouched.rebalance _ target (· + value)).trans (.of_accounts rfl))))
    exact ⟨.of_extends (moved_extends j source target value), hnoted, hnoted, htouched⟩

theorem undone (h : Advances db j.deeper k) (reverted : k.revert j.mark = .ok l) :
    Advances db j l ∧ l.entries = j.entries := by
  obtain ⟨hentries, hsee⟩ := h.restores.revert reverted
  refine ⟨⟨h.restores.undone reverted, h.genuine.undone reverted, h.fetched.undone reverted, ?_⟩,
    hentries⟩
  rintro a ⟨x, hx, htouched⟩
  obtain ⟨y, hy, hsame⟩ := Aspect.exists_of_see hsee.symm hx
  have hflag : y.flags.touched = x.flags.touched := congrArg (·.flags.touched) hsame
  exact ⟨y, hy, hflag.trans htouched⟩

/-- Going back to a checkpoint, accounts are in order again if their codes are. -/
theorem kempt_of_coded (h : Advances db j.deeper k) (reverted : k.revert j.mark = .ok l)
    (hj : j.Kempt db D)
    (coded : ∀ (a : Address) (x : Account), l.accounts[a]? = some x → x.Coded db E a) :
    l.Kempt db E := by
  obtain ⟨hadvances, hentries⟩ := h.undone reverted
  obtain ⟨-, hsee⟩ := h.restores.revert reverted
  intro a x hx
  obtain ⟨y, hy, hsame⟩ := Aspect.exists_of_see hsee hx
  have hregular := hj a y hy
  have hhash : y.info.codeHash = x.info.codeHash := congrArg (·.info.codeHash) hsame
  refine ⟨fun untouched => ?_, coded a x hx, fun known => hhash.symm.trans (hregular.rooted known)⟩
  have hflag : y.flags.touched = x.flags.touched := congrArg (·.flags.touched) hsame
  obtain ⟨⟨hbalance, hnonce, hcode⟩, hslots, hcreated, hdestroyed⟩ :=
    hregular.pristine (hflag.trans untouched)
  have hslotsame : y.slots = x.slots := congrArg (·.slots) hsame
  refine ⟨⟨?_, ?_, hhash.symm.trans hcode⟩, fun {key value} loaded => ?_, ?_, ?_⟩
  · exact (congrArg (·.info.balance) hsame).symm.trans hbalance
  · exact (congrArg (·.info.nonce) hsame).symm.trans hnonce
  · rw [← hslotsame] at loaded
    exact hslots loaded
  · exact hadvances.genuine.brought_back hentries hy hcreated hx
  · exact (congrArg (·.flags.destroyed) hsame).symm.trans hdestroyed

/-- Going back to a checkpoint, accounts are in order again that were not touched there. -/
theorem kempt (h : Advances db j.deeper k) (reverted : k.revert j.mark = .ok l)
    (hj : j.Kempt db D) (hk : k.Kempt db D) : l.Kempt db D := by
  refine h.kempt_of_coded reverted hj fun a x hx => ?_
  obtain ⟨undone, -, -, hundo, -⟩ := revert_eq_ok reverted
  rw [undoAll_getElem? hundo a] at hx
  exact Aspect.of_undoAllAt (fun e z hz => hz.restore e) hx fun z hz => (hk a z hz).coded

/-- Going back to where no code had been deployed, none is deployed. -/
theorem kempt_undeployed (h : Advances db j.deeper k) (reverted : k.revert j.mark = .ok l)
    (hj : j.Kempt db ∅) : l.Kempt db ∅ := by
  refine h.kempt_of_coded reverted hj fun a x hx => ?_
  obtain ⟨hadvances, hentries⟩ := h.undone reverted
  obtain ⟨-, hsee⟩ := h.restores.revert reverted
  obtain ⟨y, hy, hsame⟩ := Aspect.exists_of_see hsee hx
  have hhash : y.info.codeHash = x.info.codeHash := congrArg (·.info.codeHash) hsame
  obtain ⟨hfetched, hcode⟩ | ⟨_, deployed, -⟩ := (hj a y hy).coded
  · rw [hhash] at hcode
    exact .inl ⟨hadvances.fetched.brought_back hentries hy hfetched hx, hcode⟩
  · exact deployed.elim

/-- Going back to where no account had been created, all shows as it was there. -/
theorem view (h : Advances db j.deeper k) (reverted : k.revert j.mark = .ok l)
    (genuine : ∀ a, (j.view db a).created = false) : l.view db = j.view db := by
  obtain ⟨hadvances, hentries⟩ := h.undone reverted
  obtain ⟨-, hsee⟩ := h.restores.revert reverted
  funext a
  cases hx : l.accounts[a]? with
  | none =>
    have hnone : j.accounts[a]? = none := by
      have ha := congrFun hsee a
      rw [Aspect.see, hx] at ha
      exact Option.map_eq_none_iff.mp ha.symm
    rw [view_of_absent hx, view_of_absent hnone]
  | some x =>
    obtain ⟨y, hy, hsame⟩ := Aspect.exists_of_see hsee hx
    have hycreated : y.flags.created = false := by
      have hgenuine := genuine a
      rwa [view_of_loaded hy] at hgenuine
    have hxcreated := hadvances.genuine.brought_back hentries hy hycreated hx
    rw [view_of_loaded hx, view_of_loaded hy]
    exact Account.view_of_worth hsame.symm (hxcreated.trans hycreated.symm)

end Advances

end Journal

end MeteredVM
