import MeteredVM.Proofs.Journal.Aspect

namespace MeteredVM

open Accounts

/-- The code under a hash. The hash of the empty code need not be looked up. -/
def Database.codeOf (db : Database) (hash : Hash) : Bytes :=
  if hash = emptyCodeHash then ByteArray.empty else db.code hash

def AccountInfo.Fetched (db : Database) (i : AccountInfo) : Prop :=
  ∀ code, i.code = some code → code = db.codeOf i.codeHash

def Database.Candid (db : Database) : Prop := ∀ a, (Journal.fresh db a).info.Fetched db

/-- Undoing puts no other code and no other hash at hand: it takes the code away or leaves both. -/
theorem JournalEntry.restore_code (e : JournalEntry) (a : Address) (x : Account) :
    (e.restore a x).info.code = none ∨
      (e.restore a x).info.code = x.info.code ∧ (e.restore a x).info.codeHash = x.info.codeHash := by
  cases e with
  | codeSet b =>
    dsimp only [restore]
    split
    · exact .inl rfl
    · exact .inr ⟨rfl, rfl⟩
  | loaded b => exact .inr ⟨rfl, rfl⟩
  | _ =>
    dsimp only [restore]
    split_ifs <;> exact .inr ⟨rfl, rfl⟩

structure Trait where
  holds : Account → Prop
  loss : Address → JournalEntry
  of_congr {x y : Account} (created : y.flags.created = x.flags.created)
    (code : y.info.code = x.info.code) (hash : y.info.codeHash = x.info.codeHash) (h : holds x) :
    holds y
  of_restore {x : Account} (h : holds x) (e : JournalEntry) (a : Address) : holds (e.restore a x)
  of_loss (a : Address) (x : Account) : holds ((loss a).restore a x)

namespace Trait

def genuine : Trait where
  holds x := x.flags.created = false
  loss := .created
  of_congr created _ _ h := created.trans h
  of_restore {x} h e a := by
    cases e with
    | loaded b => exact h
    | _ =>
      dsimp only [JournalEntry.restore]
      split_ifs <;> first | exact h | rfl
  of_loss a x := by
    dsimp only [JournalEntry.restore]
    rw [if_pos rfl]

def fetched (db : Database) : Trait where
  holds x := x.info.Fetched db
  loss := .codeSet
  of_congr _ code hash h := by
    rw [AccountInfo.Fetched, code, hash]
    exact h
  of_restore {x} h e a := by
    obtain hnone | ⟨hcode, hhash⟩ := e.restore_code a x
    · rw [AccountInfo.Fetched, hnone]
      exact nofun
    · rw [AccountInfo.Fetched, hcode, hhash]
      exact h
  of_loss a x := by
    rw [JournalEntry.restore, if_pos rfl]
    rintro _ ⟨⟩

open Journal

variable (T : Trait)

structure Suits (db : Database) : Prop where
  fresh (a : Address) : T.holds (fresh db a)
  fetch (x : Account) (h : T.holds x) : T.holds { x with info := { x.info with
    code := some (db.codeOf x.info.codeHash) } }

def Noted (j k : Journal) : Prop :=
  ∃ newer, k.entries = newer ++ j.entries ∧ ∀ a x, k.accounts[a]? = some x →
    T.holds x ∨ T.loss a ∈ newer ∨ ∃ y, j.accounts[a]? = some y ∧ ¬T.holds y

variable {T} {db : Database} {i j k l : Journal} {a : Address} {e : JournalEntry} {x : Account}
  {es : List JournalEntry} {mark : Checkpoint} {f : Account → Account}

theorem genuine_suits (db : Database) : genuine.Suits db := ⟨fresh_created db, fun _ h => h⟩

theorem fetched_suits (h : db.Candid) : (fetched db).Suits db := by
  refine ⟨h, fun x _ => ?_⟩
  rintro _ ⟨⟩
  rfl

/-- Undoing loses nothing, and a loss that is undone is none. -/
theorem undoAllAt_lost {z : Option Account} (h : undoAllAt a es z = some x) (lost : ¬T.holds x) :
    T.loss a ∉ es ∧ ∃ y, z = some y ∧ ¬T.holds y := by
  induction es generalizing z with
  | nil => exact ⟨List.not_mem_nil, x, h, lost⟩
  | cons e es ih =>
    obtain ⟨hnone, y, hy, hlost⟩ := ih h
    change e.undoAt a z = some y at hy
    unfold JournalEntry.undoAt at hy
    split at hy
    · cases hy
    · obtain ⟨w, rfl, rfl⟩ := Option.map_eq_some_iff.mp hy
      refine ⟨fun hmem => ?_, w, rfl, fun hw => hlost (T.of_restore hw e a)⟩
      obtain rfl | hmem := List.mem_cons.mp hmem
      · exact hlost (T.of_loss a w)
      · exact hnone hmem

namespace Noted

theorem of_eq (entries : k.entries = j.entries) (accounts : k.accounts = j.accounts) :
    T.Noted j k := by
  refine ⟨[], entries, fun a x hx => ?_⟩
  rw [accounts] at hx
  by_cases h : T.holds x
  · exact .inl h
  · exact .inr (.inr ⟨x, hx, h⟩)

theorem refl (j : Journal) : T.Noted j j := of_eq rfl rfl

theorem trans (h : T.Noted i j) (h' : T.Noted j k) : T.Noted i k := by
  obtain ⟨older, he, hj⟩ := h
  obtain ⟨newer, he', hk⟩ := h'
  refine ⟨newer ++ older, by rw [he', he, List.append_assoc], fun a x hx => ?_⟩
  obtain hholds | hnoted | ⟨y, hy, hlost⟩ := hk a x hx
  · exact .inl hholds
  · exact .inr (.inl (List.mem_append_left _ hnoted))
  · obtain hholds | hnoted | hlost' := hj a y hy
    · exact absurd hholds hlost
    · exact .inr (.inl (List.mem_append_right _ hnoted))
    · exact .inr (.inr hlost')

theorem note (j : Journal) (e : JournalEntry) : T.Noted j (j.note e) := by
  refine ⟨[e], rfl, fun a x hx => ?_⟩
  by_cases h : T.holds x
  · exact .inl h
  · exact .inr (.inr ⟨x, hx, h⟩)

theorem update (j : Journal) (b : Address) (hf : ∀ x, T.holds x → T.holds (f x)) :
    T.Noted j (j.update b f) := by
  refine ⟨[], rfl, fun a x hx => ?_⟩
  rw [Journal.update, getElem?_modify_eq_map] at hx
  obtain ⟨y, hy, rfl⟩ := Option.map_eq_some_iff.mp hx
  by_cases h : T.holds y
  · left
    split
    · exact hf y h
    · exact h
  · exact .inr (.inr ⟨y, hy, h⟩)

theorem rebalance (j : Journal) (b : Address) (g : Word → Word) : T.Noted j (j.rebalance b g) :=
  update j b fun _ => T.of_congr rfl rfl rfl

theorem lose (j : Journal) (b : Address) (f : Account → Account) :
    T.Noted j ((j.note (T.loss b)).update b f) := by
  refine ⟨[T.loss b], rfl, fun a x hx => ?_⟩
  rw [Journal.update, getElem?_modify_eq_map] at hx
  obtain ⟨y, hy, rfl⟩ := Option.map_eq_some_iff.mp hx
  by_cases hba : b = a
  · subst hba
    exact .inr (.inl (List.mem_singleton_self _))
  · rw [if_neg hba]
    by_cases h : T.holds y
    · exact .inl h
    · exact .inr (.inr ⟨y, hy, h⟩)

theorem touch (j : Journal) (b : Address) : T.Noted j (j.touch b) := by
  unfold Journal.touch
  split
  · split
    · exact refl j
    · exact (note j _).trans (update _ b fun _ => T.of_congr rfl rfl rfl)
  · exact refl j

theorem look (hT : T.Suits db) (h : Look db j k) : T.Noted j k := by
  cases h with
  | ask l => exact of_eq rfl rfl
  | @account b absent =>
    refine ⟨[.loaded b], rfl, fun a x hx => ?_⟩
    simp only [Journal.note, Std.ExtTreeMap.getElem?_insert, Std.LawfulEqCmp.compare_eq_iff_eq] at hx
    split at hx
    · cases hx
      exact .inl (hT.fresh b)
    · by_cases h : T.holds x
      · exact .inl h
      · exact .inr (.inr ⟨x, hx, h⟩)
  | @code b y loaded unfetched =>
    refine ⟨[], rfl, fun a x hx => ?_⟩
    rw [Journal.update, getElem?_modify_eq_map] at hx
    obtain ⟨z, hz, rfl⟩ := Option.map_eq_some_iff.mp hx
    by_cases h : T.holds z
    · left
      split
      · rename_i hba
        subst hba
        cases loaded.symm.trans hz
        exact hT.fetch y h
      · exact h
    · exact .inr (.inr ⟨z, hz, h⟩)
  | @slot b x key loaded absent =>
    have hinsert : T.Noted j (j.update b fun y =>
        { y with slots := y.slots.insert key (unloaded db b x key) }) :=
      update j b fun _ => T.of_congr rfl rfl rfl
    exact hinsert.trans (.trans (of_eq rfl rfl) (note _ _))

theorem looks (hT : T.Suits db) (h : Looks db j k) : T.Noted j k := by
  induction h with
  | refl => exact refl j
  | tail _ hlook ih => exact ih.trans (look hT hlook)

theorem raised (j : Journal) (b : Address) : T.Noted j (j.raised b) :=
  (touch j b).trans ((note _ _).trans (update _ b fun _ => T.of_congr rfl rfl rfl))

theorem change (h : Change j k) : T.Noted j k := by
  cases h with
  | @slot a x key present loaded slot new =>
    have hinsert : T.Noted j (j.update a fun y => { y with slots := y.slots.insert key new }) :=
      update j a fun _ => T.of_congr rfl rfl rfl
    exact hinsert.trans (note _ _)
  | @destroy a x loaded target =>
    have hemptied : T.Noted j (j.emptied a) := update j a fun _ => T.of_congr rfl rfl rfl
    by_cases hat : a = target
    · subst hat
      rw [destroy_self]
      exact hemptied.trans (note _ _)
    · rw [destroy_of_ne j hat]
      exact hemptied.trans ((touch _ target).trans ((rebalance _ target _).trans (note _ _)))

theorem of_entries (h : T.Noted j k) (entries : k.entries = j.entries)
    (hx : k.accounts[a]? = some x) : T.holds x ∨ ∃ y, j.accounts[a]? = some y ∧ ¬T.holds y := by
  obtain ⟨newer, he, hk⟩ := h
  obtain rfl : newer = [] := List.self_eq_append_left.mp (entries.symm.trans he)
  exact (hk a x hx).imp_right fun h => h.resolve_left List.not_mem_nil

/-- Where no entry has been added, an account that had the trait has it. -/
theorem brought_back (h : T.Noted j k) (entries : k.entries = j.entries) {y : Account}
    (hy : j.accounts[a]? = some y) (holds : T.holds y) (hx : k.accounts[a]? = some x) : T.holds x := by
  refine (h.of_entries entries hx).resolve_right ?_
  rintro ⟨z, hz, hlost⟩
  cases hy.symm.trans hz
  exact hlost holds

theorem undone (h : T.Noted j.deeper k) (reverted : k.revert j.mark = .ok l) : T.Noted j l := by
  obtain ⟨newer, he, hk⟩ := h
  obtain ⟨undone, he', hlength, hundo, -⟩ := revert_eq_ok reverted
  have hboth : newer ++ j.entries = undone ++ l.entries := he.symm.trans he'
  obtain ⟨rfl, hentries⟩ := List.append_inj' hboth hlength.symm
  refine ⟨[], hentries.symm, fun a x hx => ?_⟩
  by_cases h : T.holds x
  · exact .inl h
  rw [undoAll_getElem? hundo a] at hx
  obtain ⟨hnone, y, hy, hlost⟩ := undoAllAt_lost hx h
  obtain hholds | hnoted | hlost' := hk a y hy
  · exact absurd hholds hlost
  · exact absurd hnoted hnone
  · exact .inr (.inr hlost')

end Noted

/-- The frame of a creation is opened: the creation is noted, and no code is at hand. -/
theorem genuine_opened (j : Journal) (a : Address) : genuine.Noted j.deeper (j.opened a) :=
  .trans (Noted.lose j.deeper a _) (.touch _ a)

theorem fetched_opened (db : Database) (j : Journal) (a : Address) :
    (fetched db).Noted j.deeper (j.opened a) := by
  refine ((Noted.note j.deeper _).trans (.update _ a fun x _ => ?_)).trans (.touch _ a)
  rintro _ ⟨⟩

theorem genuine_setCode (j : Journal) (a : Address) (code : Bytes) :
    genuine.Noted j (j.setCode a code) := by
  unfold setCode
  split
  · exact (Noted.touch j a).trans ((Noted.note _ _).trans (.update _ a fun _ h => h))
  · exact .refl j

theorem fetched_setCode (db : Database) (j : Journal) (a : Address) (code : Bytes) :
    (fetched db).Noted j (j.setCode a code) := by
  unfold setCode
  split
  · exact (Noted.touch j a).trans (Noted.lose (j.touch a) a _)
  · exact .refl j

end Trait

end MeteredVM
