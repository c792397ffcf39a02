import MeteredVM.Proofs.Store.Reflect

namespace MeteredVM

open Journal

def AccountView.counted (v : AccountView) : AccountView :=
  { v with nonce := v.nonce + 1, touched := true }

/-- What the database has of an account, where the creator, if there is one, has counted a creation. -/
def Database.shows (db : Database) (creator : Option Address) (a : Address) : AccountView :=
  let v := (fresh db a).view db a
  if creator = some a then v.counted else v

namespace Database

variable {db : Database} {creator : Option Address} {a : Address}

theorem shows_destroyed : (db.shows creator a).destroyed = false := by
  unfold shows
  split <;> exact fresh_destroyed db a

theorem shows_touched : (db.shows creator a).touched = decide (creator = some a) := by
  have hfresh : (fresh db a).flags.touched = false := by
    unfold fresh
    cases db.account a <;> rfl
  simp only [shows]
  split
  · rename_i hcreator
    rw [decide_eq_true hcreator]
    rfl
  · rename_i hother
    rw [decide_eq_false hother]
    exact hfresh

theorem shows_slots : (db.shows creator a).slots = db.slot a := by
  have hfresh : ((fresh db a).view db a).slots = db.slot a := by
    funext key
    simp only [Account.view, fresh_slots, Std.ExtTreeMap.getElem?_empty, Option.getD_none, unloaded,
      fresh_created, Bool.false_eq_true, if_false]
  unfold shows
  split <;> exact hfresh

end Database

namespace Store

/-- The store `e` reads as `d` does, but that the nonce of the creator, if there is one, is one larger. -/
structure ReadsAs (d e : Store) (creator : Option Address) : Prop where
  account {a : Address} (other : creator ≠ some a) : e.toDatabase.account a = d.toDatabase.account a
  creator {a : Address} (counted : creator = some a) :
    ∃ i, e.toDatabase.account a = some i ∧
      i.Same { (d.toDatabase.account a).getD {} with
        nonce := ((d.toDatabase.account a).getD {}).nonce + 1 }
  slot : e.toDatabase.slot = d.toDatabase.slot
  code : e.toDatabase.code = d.toDatabase.code
  blockHash : e.toDatabase.blockHash = d.toDatabase.blockHash

variable {d : Store} {j : Journal} {creator : Option Address} {a : Address} {x : Account}

section Unwritten

variable (hd : d.Proper) (kempt : j.Kempt d.toDatabase ∅)
  (shows : ∀ a, j.view d.toDatabase a = d.toDatabase.shows creator a)

include hd kempt in
/-- Where no code is deployed, what is filed is stored already. -/
theorem codes_commit (hash : Hash) : (d.commit j.accounts).codes[hash]? = d.codes[hash]? := by
  rw [commit, Std.ExtTreeMap.foldl_eq_foldl_toList]
  obtain hsame | ⟨p, hp, code, hcode, rfl, hfound⟩ := codes_foldl d j.accounts.toList hash
  · exact hsame
  · have hloaded := Std.ExtTreeMap.mem_toList_iff_getElem?_eq_some.mp hp
    obtain hstored | deployed := hd.filing (kempt _ _ hloaded).coded hcode
    · exact hfound.trans hstored.symm
    · exact deployed.elim

include shows

theorem view_of_shows (loaded : j.accounts[a]? = some x) :
    x.view d.toDatabase a = d.toDatabase.shows creator a := by
  rw [← shows, view_of_loaded loaded]

theorem kept_of_shows (loaded : j.accounts[a]? = some x) : x.flags.destroyed = false :=
  (congrArg (·.destroyed) (view_of_shows shows loaded)).trans Database.shows_destroyed

theorem touched_of_shows (loaded : j.accounts[a]? = some x) :
    x.flags.touched = decide (creator = some a) :=
  (congrArg (·.touched) (view_of_shows shows loaded)).trans Database.shows_touched

theorem account_commit (other : creator ≠ some a) :
    (d.commit j.accounts).toDatabase.account a = d.toDatabase.account a := by
  rw [toDatabase_account, toDatabase_account, getElem?_commit]
  cases loaded : j.accounts[a]? with
  | none => rfl
  | some x =>
    rw [Option.elim_some, touched_of_shows shows loaded, decide_eq_false other,
      if_neg Bool.false_ne_true]

/-- The creator is loaded, as an account that is not shows what the database has, and then it has counted
nothing. -/
theorem exists_creator (counted : creator = some a) : ∃ x, j.accounts[a]? = some x ∧
    x.view d.toDatabase a = ((fresh d.toDatabase a).view d.toDatabase a).counted := by
  have hshows : d.toDatabase.shows creator a = ((fresh d.toDatabase a).view d.toDatabase a).counted :=
    if_pos counted
  cases loaded : j.accounts[a]? with
  | none =>
    have hnonce := congrArg (·.nonce) (shows a)
    rw [hshows, view_of_absent loaded] at hnonce
    exact absurd hnonce (Nat.ne_of_lt (Nat.lt_succ_self _))
  | some x => exact ⟨x, rfl, (view_of_shows shows loaded).trans hshows⟩

include kempt

theorem slot_commit (a : Address) (key : Word) :
    (d.commit j.accounts).toDatabase.slot a key = d.toDatabase.slot a key := by
  cases loaded : j.accounts[a]? with
  | none => rw [toDatabase_slot, toDatabase_slot, getElem?_commit, loaded, Option.elim_none]
  | some x =>
    have hslots : (x.view d.toDatabase a).slots key = d.toDatabase.slot a key := by
      rw [view_of_shows shows loaded, Database.shows_slots]
    exact (committed_slot kempt loaded (kept_of_shows shows loaded) key).trans hslots

include hd

theorem creator_commit (counted : creator = some a) :
    ∃ i, (d.commit j.accounts).toDatabase.account a = some i ∧
      i.Same { (d.toDatabase.account a).getD {} with
        nonce := ((d.toDatabase.account a).getD {}).nonce + 1 } := by
  obtain ⟨x, loaded, hx⟩ := exists_creator shows counted
  have hstored : ((d.commit j.accounts).toDatabase.account a).isSome := by
    rw [toDatabase_account, getElem?_commit, loaded, Option.elim_some, touched_of_shows shows loaded,
      decide_eq_true counted, if_pos rfl]
    rfl
  obtain ⟨i, hi⟩ := Option.isSome_iff_exists.mp hstored
  have hinfo := committed_info hd kempt (fun deployed => deployed.elim) loaded
    (kept_of_shows shows loaded)
  rw [hi, Option.getD_some] at hinfo
  obtain ⟨hbalance, hnonce, hhash⟩ := hinfo
  refine ⟨i, hi, ?_⟩
  rw [← fresh_info]
  exact ⟨hbalance.trans (congrArg (·.balance) hx), hnonce.trans (congrArg (·.nonce) hx),
    hhash.trans (congrArg (·.codeHash) hx)⟩

theorem readsAs_commit : d.ReadsAs (d.commit j.accounts) creator where
  account := account_commit shows
  creator := creator_commit hd kempt shows
  slot := funext fun a => funext (slot_commit kempt shows a)
  code := by
    funext hash
    rw [toDatabase_code, toDatabase_code, codes_commit hd kempt]
  blockHash := toDatabase_blockHash_commit d j.accounts

end Unwritten

end Store

end MeteredVM
