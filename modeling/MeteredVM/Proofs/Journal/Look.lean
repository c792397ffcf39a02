import MeteredVM.Proofs.Journal.Undo
import MeteredVM.Proofs.Outcome

namespace MeteredVM.Journal

open Accounts Relation

def unloaded (db : Database) (a : Address) (x : Account) (key : Word) : Word :=
  if x.flags.created then 0 else db.slot a key

theorem fresh_slots (db : Database) (a : Address) : (fresh db a).slots = ∅ := by
  unfold fresh
  cases db.account a with
  | none => rfl
  | some info => rfl

theorem fresh_created (db : Database) (a : Address) : (fresh db a).flags.created = false := by
  unfold fresh
  cases db.account a with
  | none => rfl
  | some info => rfl

theorem fresh_destroyed (db : Database) (a : Address) : (fresh db a).flags.destroyed = false := by
  unfold fresh
  cases db.account a with
  | none => rfl
  | some info => rfl

inductive Look (db : Database) : Journal → Journal → Prop
  | ask (j : Journal) (l : Lookup) : Look db j { j with lookups := l :: j.lookups }
  | account {j : Journal} {a : Address} (absent : j.accounts[a]? = none) :
      Look db j ({ j with accounts := j.accounts.insert a (fresh db a) }.note (.loaded a))
  | code {j : Journal} {a : Address} {x : Account} (loaded : j.accounts[a]? = some x)
      (unfetched : x.info.code = none) :
      Look db j (j.update a fun y => { y with info := { y.info with
        code := some (if x.info.codeHash = emptyCodeHash then ByteArray.empty
          else db.code x.info.codeHash) } })
  | slot {j : Journal} {a : Address} {x : Account} {key : Word} (loaded : j.accounts[a]? = some x)
      (absent : x.slots[key]? = none) :
      Look db j ({ j.update a fun y => { y with
          slots := y.slots.insert key (unloaded db a x key) } with
        ledger := j.ledger.record ⟨a, key⟩ (unloaded db a x key) }.note (.slotChanged a key none))

abbrev Looks (db : Database) : Journal → Journal → Prop := ReflTransGen (Look db)

/-- The access takes looks only; if it is answered, its answer satisfies `Q`. -/
def Shows {α : Type} (db : Database) (x : Loading α) (j : Journal) (Q : α → Journal → Prop) : Prop :=
  match x j with
  | .ok a k => Looks db j k ∧ Q a k
  | .error _ k => Looks db j k

section Rules

variable {α β : Type} {db : Database} {x : Loading α} {j k : Journal} {Q : α → Journal → Prop}

theorem Shows.iff : Shows db x j Q ↔
    Ends x j (fun _ k => Looks db j k) fun a k => Looks db j k ∧ Q a k := by
  unfold Shows Ends
  cases x j with
  | ok a k => rfl
  | error outage k => rfl

theorem Shows.ok {a : α} (h : Shows db x j Q) (hx : x j = .ok a k) : Looks db j k ∧ Q a k :=
  (iff.mp h).ok hx

theorem Shows.error {outage : Outage} (h : Shows db x j Q) (hx : x j = .error outage k) :
    Looks db j k :=
  (iff.mp h).error hx

theorem Shows.looks (h : Shows db x j Q) : Looks db j (leftBy x j) :=
  Ends.left ((iff.mp h).imp fun _ _ hk => hk.1)

theorem Shows.pure {a : α} (h : Q a j) : Shows db (pure a : Loading α) j Q := ⟨.refl, h⟩

theorem Shows.bind {f : α → Loading β} {R : β → Journal → Prop}
    (hx : Shows db x j Q) (hf : ∀ a k, Q a k → Shows db (f a) k R) : Shows db (x >>= f) j R := by
  apply iff.mpr
  refine Ends.bind (iff.mp hx) fun a k hk => ?_
  have hfa := iff.mp (hf a k hk.2)
  exact (hfa.refused fun _ _ hl => hk.1.trans hl).imp fun _ _ hl => ⟨hk.1.trans hl.1, hl.2⟩

theorem Shows.get : Shows db get j fun s k => s = j ∧ k = j := ⟨.refl, rfl, rfl⟩

theorem Shows.modify {f : Journal → Journal} (h : Looks db j (f j)) :
    Shows db (modify f) j fun _ k => k = f j := ⟨h, rfl⟩

theorem Shows.lookup (l : Lookup) :
    Shows db (lookup db l) j fun _ k => k = { j with lookups := l :: j.lookups } := by
  simp only [Shows, Journal.lookup]
  split
  · rename_i h
    split at h
    · cases h
    · cases h
      exact ⟨.single (.ask j l), rfl⟩
  · rename_i h
    split at h
    · cases h
      exact .single (.ask j l)
    · cases h

end Rules

variable {db : Database}

theorem loadAccount_shows (a : Address) (j : Journal) :
    Shows db (loadAccount db a) j fun x k => k.accounts[a]? = some x.value := by
  apply Shows.bind .get
  rintro _ k ⟨rfl, rfl⟩
  split
  · rename_i x hx
    exact .pure hx
  · rename_i hx
    refine Shows.bind (.lookup _) ?_
    rintro _ l rfl
    refine Shows.bind (.modify (.single (.account hx))) ?_
    rintro _ l rfl
    refine .pure ?_
    simp [note]

theorem loadExistence_shows (a : Address) (j : Journal) :
    Shows db (loadExistence db a) j fun _ k => (k.accounts[a]?).isSome := by
  apply Shows.bind (loadAccount_shows a j)
  intro x k hx
  apply Shows.bind .get
  rintro _ k ⟨rfl, rfl⟩
  have hs : (k.accounts[a]?).isSome := by simp [hx]
  split
  · exact .pure hs
  · exact .pure hs

/-- The last steps of the first access to the code of an account. -/
def fetchCode (a : Address) (code : Bytes) (cold : Bool) : Loading (Loaded Bytes) := do
  modify fun j => j.update a fun y => { y with info := { y.info with code := some code } }
  return ⟨code, cold⟩

theorem fetchCode_shows {j : Journal} {a : Address} {x : Account} {code : Bytes}
    (hx : j.accounts[a]? = some x) (unfetched : x.info.code = none)
    (hcode : code = if x.info.codeHash = emptyCodeHash then ByteArray.empty
      else db.code x.info.codeHash) (cold : Bool) :
    Shows db (fetchCode a code cold) j fun _ k => (k.accounts[a]?).isSome := by
  subst hcode
  refine Shows.bind (.modify (.single (.code hx unfetched))) ?_
  rintro _ k rfl
  refine .pure ?_
  simp [update, hx]

theorem loadCode_shows (a : Address) (j : Journal) :
    Shows db (loadCode db a) j fun _ k => (k.accounts[a]?).isSome := by
  apply Shows.bind (loadAccount_shows a j)
  intro x k hx
  have hs : (k.accounts[a]?).isSome := by simp [hx]
  split
  · exact .pure hs
  · rename_i hc
    by_cases he : x.value.info.codeHash = emptyCodeHash
    · simp only [he, ne_eq, not_true_eq_false, if_false, if_true]
      exact fetchCode_shows hx hc (by rw [if_pos he]) x.cold
    · simp only [he, ne_eq, not_false_eq_true, if_false, if_true]
      apply Shows.bind (.lookup _)
      rintro _ l hl
      have hx' : l.accounts[a]? = some x.value := by rw [hl, hx]
      exact fetchCode_shows hx' hc (by rw [if_neg he]) x.cold

def fetchedSlot (j : Journal) (a : Address) (key v : Word) : Journal :=
  { j.update a fun y => { y with slots := y.slots.insert key v } with
    ledger := j.ledger.record ⟨a, key⟩ v }.note (.slotChanged a key none)

def fetchSlot (a : Address) (key v : Word) : Loading (Loaded Word) := do
  modify (·.fetchedSlot a key v)
  return ⟨v, true⟩

theorem fetchSlot_shows {j : Journal} {a : Address} {x : Account} {key v : Word}
    (hx : j.accounts[a]? = some x) (absent : x.slots[key]? = none) (hv : v = unloaded db a x key) :
    Shows db (fetchSlot a key v) j fun v k =>
      ∃ x, k.accounts[a]? = some x ∧ x.slots[key]? = some v.value := by
  subst hv
  refine Shows.bind (.modify (.single (.slot hx absent))) ?_
  rintro _ k rfl
  refine .pure ?_
  simp [fetchedSlot, update, note, hx]

theorem readSlot_shows (a : Address) (key : Word) (j : Journal) :
    Shows db (readSlot db a key) j fun v k =>
      ∃ x, k.accounts[a]? = some x ∧ x.slots[key]? = some v.value := by
  apply Shows.bind (loadAccount_shows a j)
  intro x k hx
  split
  · rename_i v hv
    exact .pure ⟨_, hx, hv⟩
  · rename_i hv
    by_cases hc : x.value.flags.created = true
    · simp only [hc, Bool.not_true, Bool.false_eq_true, if_false, if_true]
      exact fetchSlot_shows hx hv (by rw [unloaded, if_pos hc])
    · simp only [hc, Bool.not_false, if_true, Bool.false_eq_true, if_false]
      refine Shows.bind (.lookup _) ?_
      rintro _ l hl
      have hx' : l.accounts[a]? = some x.value := by rw [hl, hx]
      exact fetchSlot_shows hx' hv (by rw [unloaded, if_neg hc])

theorem loadBlockHash_shows (number : Nat) (j : Journal) :
    Shows db (loadBlockHash db number) j fun _ _ => True := by
  refine Shows.bind (.lookup _) ?_
  rintro _ k rfl
  exact .pure trivial

theorem Look.extends {j k : Journal} (h : Look db j k) : j.Extends k := by
  cases h with
  | ask l => exact .of_alike rfl rfl (List.suffix_refl _) rfl (Alike.refl _)
  | @account a absent =>
    refine .of_undo (.loaded a) rfl rfl (List.suffix_refl _) rfl rfl ?_
    intro b
    simp only [note, look_erase, look_insert]
    split
    · rename_i hab
      subst hab
      simp [look, absent]
    · rfl
  | code loaded unfetched =>
    exact .of_alike rfl rfl (List.suffix_refl _) rfl (alike_modify_self _ _ fun _ _ => rfl)
  | @slot a x key loaded absent =>
    refine .of_undo (.slotChanged a key none) rfl rfl (List.suffix_refl _) rfl rfl ?_
    simp only [note, update, modify_modify]
    apply alike_modify_of_eq_some loaded
    have hs : (x.slots.insert key (unloaded db a x key)).erase key = x.slots := by
      apply Std.ExtTreeMap.ext_getElem?
      intro key'
      simp only [Std.ExtTreeMap.getElem?_erase, Std.ExtTreeMap.getElem?_insert,
        Std.LawfulEqCmp.compare_eq_iff_eq]
      split
      · rename_i hk
        rw [← hk, absent]
      · rfl
    rw [hs]

theorem Looks.extends {j k : Journal} (h : Looks db j k) : j.Extends k := by
  induction h with
  | refl => exact .refl j
  | tail _ h ih => exact ih.trans h.extends

theorem loaded_modify (m : Accounts) (a b : Address) (f : Account → Account) :
    ((m.modify a f)[b]?).isSome = (m[b]?).isSome := by
  rw [getElem?_modify]
  split
  · rename_i hab
    subst hab
    exact Option.isSome_map
  · rfl

theorem Look.loaded {j k : Journal} {a : Address} (h : Look db j k) (ha : (j.accounts[a]?).isSome) : (k.accounts[a]?).isSome := by
  cases h with
  | ask l => exact ha
  | @account b absent =>
    simp only [note, Std.ExtTreeMap.getElem?_insert, Std.LawfulEqCmp.compare_eq_iff_eq]
    split
    · rfl
    · exact ha
  | code loaded unfetched =>
    rw [update, loaded_modify]
    exact ha
  | slot loaded absent =>
    rw [note, update, loaded_modify]
    exact ha

theorem Looks.loaded {j k : Journal} {a : Address} (h : Looks db j k) (ha : (j.accounts[a]?).isSome) :
    (k.accounts[a]?).isSome := by
  induction h with
  | refl => exact ha
  | tail _ h ih => exact h.loaded ih

end MeteredVM.Journal
