import MeteredVM.Proofs.Journal.Conserved
import MeteredVM.Proofs.Journal.Payment
import MeteredVM.Proofs.Journal.Trait

namespace MeteredVM

open Accounts Journal Relation

namespace Account

def worth (x : Account) : Account := { x.bare with flags := { x.flags with created := false } }

theorem restore_worth (e : JournalEntry) (a : Address) (x : Account) :
    (e.restore a x).worth = (e.restore a x.worth).worth := by
  cases e with
  | loaded b => rfl
  | _ =>
    dsimp only [JournalEntry.restore]
    split_ifs <;> rfl

theorem view_of_worth {db : Database} {a : Address} {x y : Account} (h : x.worth = y.worth)
    (created : x.flags.created = y.flags.created) : x.view db a = y.view db a := by
  have hslots : x.slots = y.slots := congrArg (·.slots) h
  apply AccountView.ext
  · exact congrArg (·.info.balance) h
  · exact congrArg (·.info.nonce) h
  · exact congrArg (·.info.codeHash) h
  · funext key
    simp only [view, Journal.unloaded, hslots, created]
  · exact created
  · exact congrArg (·.flags.destroyed) h
  · exact congrArg (·.flags.touched) h

structure Pristine (db : Database) (a : Address) (x : Account) : Prop where
  info : x.info.Same (fresh db a).info
  slots {key value : Word} (loaded : x.slots[key]? = some value) : value = db.slot a key
  created : x.flags.created = false
  destroyed : x.flags.destroyed = false

/-- The code of the account is that of the database, or none, or it has been deployed there and is at
hand. -/
def Coded (db : Database) (D : Set (Address × Bytes)) (a : Address) (x : Account) : Prop :=
  x.info.Fetched db ∧
      (x.info.codeHash = (fresh db a).info.codeHash ∨ x.info.codeHash = emptyCodeHash) ∨
    ∃ code, (a, code) ∈ D ∧ x.info.code = some code ∧ x.info.codeHash = codeHash code

structure Regular (db : Database) (D : Set (Address × Bytes)) (a : Address) (x : Account) : Prop where
  pristine (untouched : x.flags.touched = false) : x.Pristine db a
  coded : x.Coded db D a
  /-- Code of the database is not replaced. -/
  rooted (known : (fresh db a).info.codeHash ≠ emptyCodeHash) :
    x.info.codeHash = (fresh db a).info.codeHash

variable {db : Database} {D : Set (Address × Bytes)} {a : Address} {x y : Account}

theorem Coded.restore (h : x.Coded db D a) (e : JournalEntry) : (e.restore a x).Coded db D a := by
  cases e with
  | codeSet b =>
    dsimp only [JournalEntry.restore]
    split
    · exact .inl ⟨by rintro _ ⟨⟩, .inr rfl⟩
    · exact h
  | loaded b => exact h
  | _ =>
    dsimp only [JournalEntry.restore]
    split_ifs <;> exact h

theorem Regular.of_touched (h : x.Regular db D a) (touched : y.flags.touched = true)
    (code : y.info.code = x.info.code) (hash : y.info.codeHash = x.info.codeHash) :
    y.Regular db D a := by
  refine ⟨fun untouched => ?_, ?_, fun known => hash.trans (h.rooted known)⟩
  · rw [touched] at untouched
    cases untouched
  · rw [Coded, AccountInfo.Fetched, code, hash]
    exact h.coded

end Account

def Aspect.worth : Aspect Account where
  of := Account.worth
  of_bare _ := rfl
  of_created _ _ := rfl
  of_restore h e a := by rw [Account.restore_worth, h, ← Account.restore_worth]

namespace Journal

variable {db : Database} {D : Set (Address × Bytes)} {i j k l m : Journal} {a b : Address}
  {x : Account} {f : Account → Account} {mark : Checkpoint} {source target : Address} {value : Word}

def Touched (j : Journal) (a : Address) : Prop :=
  ∃ x, j.accounts[a]? = some x ∧ x.flags.touched = true

def KeepsTouched (j k : Journal) : Prop := ∀ a, j.Touched a → k.Touched a

namespace KeepsTouched

theorem refl (j : Journal) : j.KeepsTouched j := fun _ h => h

theorem trans (h : i.KeepsTouched j) (h' : j.KeepsTouched k) : i.KeepsTouched k :=
  fun a ha => h' a (h a ha)

theorem of_accounts (h : k.accounts = j.accounts) : j.KeepsTouched k := by
  intro a ha
  rw [Touched, h]
  exact ha

theorem update (j : Journal) (b : Address) (hf : ∀ x, (f x).flags.touched = x.flags.touched) :
    j.KeepsTouched (j.update b f) := by
  rintro a ⟨x, hx, htouched⟩
  refine ⟨if b = a then f x else x, ?_, ?_⟩
  · rw [Journal.update, getElem?_modify_eq_map, hx]
    rfl
  · split
    · exact (hf x).trans htouched
    · exact htouched

theorem rebalance (j : Journal) (b : Address) (g : Word → Word) :
    j.KeepsTouched (j.rebalance b g) :=
  update j b fun _ => rfl

theorem touch (j : Journal) (b : Address) : j.KeepsTouched (j.touch b) := by
  rintro a ⟨x, hx, htouched⟩
  refine ⟨if b = a then { x with flags := { x.flags with touched := true } } else x, ?_, ?_⟩
  · rw [touch_accounts, getElem?_modify_eq_map, hx]
    rfl
  · split
    · rfl
    · exact htouched

theorem look (h : Look db j k) : j.KeepsTouched k := by
  cases h with
  | ask l => exact of_accounts rfl
  | @account b absent =>
    rintro a ⟨x, hx, htouched⟩
    refine ⟨x, ?_, htouched⟩
    have hab : b ≠ a := by
      rintro rfl
      rw [absent] at hx
      cases hx
    simp only [note, Std.ExtTreeMap.getElem?_insert, Std.LawfulEqCmp.compare_eq_iff_eq, if_neg hab]
    exact hx
  | code loaded unfetched => exact update j _ fun _ => rfl
  | @slot b x key loaded absent =>
    have hinsert : j.KeepsTouched (j.update b fun y =>
        { y with slots := y.slots.insert key (unloaded db b x key) }) := update j b fun _ => rfl
    exact hinsert.trans (of_accounts rfl)

theorem looks (h : Looks db j k) : j.KeepsTouched k := by
  induction h with
  | refl => exact refl j
  | tail _ hlook ih => exact ih.trans (look hlook)

theorem raised (j : Journal) (a : Address) : j.KeepsTouched (j.raised a) :=
  (touch j a).trans ((of_accounts rfl).trans (update _ a fun _ => rfl))

theorem opened (j : Journal) (a : Address) : j.deeper.KeepsTouched (j.opened a) := by
  have hcreated : j.deeper.KeepsTouched ((j.deeper.note (.created a)).update a fun x =>
      { x with
        flags := { x.flags with created := true }
        info := { x.info with
          code := none
          nonce := if j.clearsEmpty then 1 else x.info.nonce } }) :=
    .trans (of_accounts rfl) (update (j.deeper.note (.created a)) a fun _ => rfl)
  exact hcreated.trans (touch _ a)

theorem setCode (j : Journal) (a : Address) (code : Bytes) :
    j.KeepsTouched (j.setCode a code) := by
  unfold Journal.setCode
  split
  · exact (touch j a).trans ((of_accounts rfl).trans (update _ a fun _ => rfl))
  · exact refl j

theorem change (h : Change j k) : j.KeepsTouched k := by
  cases h with
  | @slot a x key present loaded slot new =>
    have hinsert : j.KeepsTouched (j.update a fun y => { y with slots := y.slots.insert key new }) :=
      update j a fun _ => rfl
    exact hinsert.trans (of_accounts rfl)
  | @destroy a x loaded target =>
    have hemptied : j.KeepsTouched (j.emptied a) := update j a fun _ => rfl
    by_cases hat : a = target
    · subst hat
      rw [destroy_self]
      exact hemptied.trans (of_accounts rfl)
    · rw [destroy_of_ne j hat]
      exact hemptied.trans ((touch _ target).trans ((rebalance _ target (· + _)).trans (of_accounts rfl)))

theorem transfer (source target : Address) (value : Word) (j : Journal) :
    j.KeepsTouched (leftBy (Journal.transfer source target value) j) :=
  transfer_rule refl trans touch (fun j a _ => update j a fun _ => rfl)
    (fun _ => of_accounts rfl) j

end KeepsTouched

theorem touched_touch (ha : (j.accounts[a]?).isSome) : (j.touch a).Touched a := by
  obtain ⟨x, hx⟩ := Option.isSome_iff_exists.mp ha
  exact ⟨_, touched_loaded hx, rfl⟩

def Kempt (db : Database) (D : Set (Address × Bytes)) (j : Journal) : Prop :=
  ∀ (a : Address) (x : Account), j.accounts[a]? = some x → x.Regular db D a

namespace Kempt

theorem of_accounts (h : j.Kempt db D) (accounts : k.accounts = j.accounts) : k.Kempt db D := by
  intro a x hx
  rw [accounts] at hx
  exact h a x hx

theorem update (h : j.Kempt db D)
    (hf : ∀ x, j.accounts[b]? = some x → x.Regular db D b → (f x).Regular db D b) :
    (j.update b f).Kempt db D := by
  intro a x hx
  rw [Journal.update, getElem?_modify_eq_map] at hx
  obtain ⟨y, hy, rfl⟩ := Option.map_eq_some_iff.mp hx
  have hregular := h a y hy
  split
  · rename_i hba
    subst hba
    exact hf y hy hregular
  · exact hregular

/-- Changes of an account that is touched are free, but for its code. -/
theorem write (h : j.Kempt db D) (touched : j.Touched b)
    (hf : ∀ x, (f x).flags.touched = x.flags.touched) (code : ∀ x, (f x).info.code = x.info.code)
    (hash : ∀ x, (f x).info.codeHash = x.info.codeHash) : (j.update b f).Kempt db D := by
  refine h.update fun x hx hregular => hregular.of_touched ?_ (code x) (hash x)
  obtain ⟨y, hy, htouched⟩ := touched
  cases hx.symm.trans hy
  exact (hf x).trans htouched

theorem rebalance (h : j.Kempt db D) (touched : j.Touched b) (g : Word → Word) :
    (j.rebalance b g).Kempt db D :=
  h.write touched (fun _ => rfl) (fun _ => rfl) fun _ => rfl

theorem touch (h : j.Kempt db D) (b : Address) : (j.touch b).Kempt db D := by
  have hupdate : (j.update b fun x =>
      { x with flags := { x.flags with touched := true } }).Kempt db D :=
    h.update fun x _ hregular => hregular.of_touched rfl rfl rfl
  exact hupdate.of_accounts (touch_accounts j b)

theorem fresh (hdb : db.Candid) (a : Address) : (fresh db a).Regular db D a where
  pristine _ := by
    refine ⟨⟨rfl, rfl, rfl⟩, fun {key value} loaded => ?_, fresh_created db a, fresh_destroyed db a⟩
    rw [fresh_slots, Std.ExtTreeMap.getElem?_empty] at loaded
    cases loaded
  coded := .inl ⟨hdb a, .inl rfl⟩
  rooted _ := rfl

theorem look (hdb : db.Candid) (h : j.Kempt db D) (looked : Look db j k) : k.Kempt db D := by
  cases looked with
  | ask l => exact h.of_accounts rfl
  | @account b absent =>
    intro a x hx
    simp only [note, Std.ExtTreeMap.getElem?_insert, Std.LawfulEqCmp.compare_eq_iff_eq] at hx
    split at hx
    · rename_i hba
      subst hba
      cases hx
      exact fresh hdb b
    · exact h a x hx
  | @code b x loaded unfetched =>
    refine h.update fun y hy hregular => ?_
    cases loaded.symm.trans hy
    refine ⟨fun untouched => ?_, ?_, hregular.rooted⟩
    · obtain ⟨info, slots, created, destroyed⟩ := hregular.pristine untouched
      exact ⟨info, slots, created, destroyed⟩
    · obtain ⟨-, hhash⟩ | ⟨code, -, hcode, -⟩ := hregular.coded
      · refine .inl ⟨?_, hhash⟩
        rintro _ ⟨⟩
        rfl
      · rw [unfetched] at hcode
        cases hcode
  | @slot b x key loaded absent =>
    have hinsert : (j.update b fun y =>
        { y with slots := y.slots.insert key (unloaded db b x key) }).Kempt db D := by
      refine h.update fun y hy hregular => ?_
      cases loaded.symm.trans hy
      refine ⟨fun untouched => ?_, hregular.coded, hregular.rooted⟩
      obtain ⟨info, slots, created, destroyed⟩ := hregular.pristine untouched
      refine ⟨info, fun {key' value} hvalue => ?_, created, destroyed⟩
      simp only [Std.ExtTreeMap.getElem?_insert, Std.LawfulEqCmp.compare_eq_iff_eq] at hvalue
      split at hvalue
      · rename_i hkey
        subst hkey
        cases hvalue
        rw [unloaded, created]
        rfl
      · exact slots hvalue
    exact hinsert.of_accounts rfl

theorem looks (hdb : db.Candid) (h : j.Kempt db D) (looked : Looks db j k) : k.Kempt db D := by
  induction looked with
  | refl => exact h
  | tail _ hlook ih => exact ih.look hdb hlook

theorem raised (h : j.Kempt db D) (ha : (j.accounts[a]?).isSome) : (j.raised a).Kempt db D :=
  .write ((h.touch a).of_accounts rfl) (touched_touch ha) (fun _ => rfl) (fun _ => rfl) fun _ => rfl

/-- The account of a creation has no code, in the database neither. -/
theorem opened (h : j.Kempt db D) (hx : j.accounts[a]? = some x)
    (hcode : x.info.codeHash = emptyCodeHash) : (j.opened a).Kempt db D := by
  have hopened : j.opened a = ((j.deeper.note (.created a)).touch a).update a fun x =>
      { x with
        flags := { x.flags with created := true }
        info := { x.info with
          code := none
          nonce := if j.clearsEmpty then 1 else x.info.nonce } } := by
    rw [Journal.opened, touch_update]
    · intro y
      rfl
    · intro y
      rfl
  have hnoted : (j.deeper.note (.created a)).accounts[a]? = some x := hx
  have htouched := touched_loaded hnoted
  have hdeeper : (j.deeper.note (.created a)).Kempt db D := h.of_accounts rfl
  have hkempt := hdeeper.touch a
  rw [hopened]
  refine hkempt.update fun y hy hregular => ?_
  cases htouched.symm.trans hy
  refine ⟨fun untouched => Bool.noConfusion untouched, .inl ⟨?_, .inr hcode⟩, hregular.rooted⟩
  rintro _ ⟨⟩

/-- Code is deployed at an account that had none in the database. -/
theorem setCode (h : j.Kempt db D) {code : Bytes} (stored : (a, code) ∈ D)
    (hnone : (Journal.fresh db a).info.codeHash = emptyCodeHash) : (j.setCode a code).Kempt db D := by
  unfold Journal.setCode
  split
  · rename_i x hx
    have htouched : ((j.touch a).note (.codeSet a)).accounts[a]? = _ := touched_loaded hx
    have hkempt : ((j.touch a).note (.codeSet a)).Kempt db D := (h.touch a).of_accounts rfl
    refine hkempt.update fun y hy hregular => ?_
    cases htouched.symm.trans hy
    exact ⟨fun untouched => Bool.noConfusion untouched, .inr ⟨code, stored, rfl, rfl⟩,
      fun known => absurd hnone known⟩
  · exact h

theorem paid (h : j.Kempt db D) (paid : Paid db j source target value k) : k.Kempt db D := by
  cases paid with
  | free => exact h
  | moved payer payee enough =>
    have hpayer : ((j.touch source).touch target).Touched source :=
      KeepsTouched.touch _ target source (touched_touch payer)
    have hpayee : ((j.touch source).touch target).Touched target :=
      touched_touch (by rwa [loaded_touch])
    have hdebited := ((h.touch source).touch target).rebalance hpayer (· - value)
    have hstays := KeepsTouched.rebalance ((j.touch source).touch target) source (· - value)
    exact (hdebited.rebalance (hstays target hpayee) (· + value)).of_accounts rfl

/-- What an access changes belongs to an account that is touched, or is touched by it. -/
theorem slot (h : j.Kempt db D) (touched : j.Touched a) (key new : Word) (e : JournalEntry) :
    ((j.update a fun y => { y with slots := y.slots.insert key new }).note e).Kempt db D := by
  have hinsert : (j.update a fun y => { y with slots := y.slots.insert key new }).Kempt db D :=
    h.write touched (fun _ => rfl) (fun _ => rfl) fun _ => rfl
  exact hinsert.of_accounts rfl

theorem destroy (h : j.Kempt db D) (touched : j.Touched a) (payee : (j.accounts[target]?).isSome)
    (x : Account) : (j.destroy a target x).Kempt db D := by
  have hemptied : (j.emptied a).Kempt db D :=
    h.write touched (fun _ => rfl) (fun _ => rfl) fun _ => rfl
  by_cases hat : a = target
  · subst hat
    rw [destroy_self]
    exact hemptied.of_accounts rfl
  · rw [destroy_of_ne j hat]
    have hpayee : ((j.emptied a).touch target).Touched target :=
      touched_touch (by rwa [Journal.emptied, Journal.update, loaded_modify])
    exact ((hemptied.touch target).rebalance hpayee (· + x.info.balance)).of_accounts rfl

end Kempt

end Journal

end MeteredVM
