import MeteredVM.Proofs.Journal.Facet

namespace MeteredVM

open Accounts

namespace JournalEntry

def undoAt (e : JournalEntry) (a : Address) (loaded : Option Account) : Option Account :=
  if e = .loaded a then none else loaded.map (e.restore a)

def Avoids (e : JournalEntry) (a : Address) : Prop := ∀ loaded, e.undoAt a loaded = loaded

variable {e : JournalEntry} {a : Address}

theorem Avoids.of_restore (hloaded : e ≠ .loaded a) (h : ∀ x, e.restore a x = x) : e.Avoids a := by
  intro loaded
  rw [undoAt, if_neg hloaded, funext h, Option.map_id']

theorem restore_bare (e : JournalEntry) (a : Address) (x : Account) :
    (e.restore a x).bare = (e.restore a x.bare).bare := by
  cases e with
  | loaded b => rfl
  | _ =>
    simp only [restore]
    split_ifs <;> rfl

theorem undoAt_bare (e : JournalEntry) (a : Address) (loaded : Option Account) :
    (e.undoAt a loaded).map Account.bare =
      (e.undoAt a (loaded.map Account.bare)).map Account.bare := by
  unfold undoAt
  split
  · rfl
  · cases loaded with
    | none => rfl
    | some x => exact congrArg some (e.restore_bare a x)

end JournalEntry

namespace Journal

def undoAllAt (a : Address) (entries : List JournalEntry) (loaded : Option Account) :
    Option Account :=
  entries.foldl (fun loaded e => e.undoAt a loaded) loaded

variable {a : Address} {entries : List JournalEntry} {m n : Accounts} {i j k l : Journal}

theorem undoAll_getElem? (h : undoAll m entries = .ok n) (a : Address) :
    n[a]? = undoAllAt a entries m[a]? := by
  induction entries generalizing m with
  | nil =>
    cases h
    rfl
  | cons e entries ih =>
    obtain ⟨u, hu, h⟩ := Except.bind_eq_ok h
    rw [ih h, undo_getElem? hu a]
    rfl

theorem undoAllAt_avoided (h : ∀ e ∈ entries, e.Avoids a) (loaded : Option Account) :
    undoAllAt a entries loaded = loaded := by
  induction entries with
  | nil => rfl
  | cons e entries ih =>
    rw [undoAllAt, List.foldl_cons, h e List.mem_cons_self]
    exact ih fun e' he' => h e' (List.mem_cons_of_mem e he')

theorem undoAllAt_congr {x y : Option Account} (h : x.map Account.bare = y.map Account.bare) :
    (undoAllAt a entries x).map Account.bare = (undoAllAt a entries y).map Account.bare := by
  induction entries generalizing x y with
  | nil => exact h
  | cons e entries ih =>
    apply ih
    rw [e.undoAt_bare, h, ← e.undoAt_bare]

/-- Undoing the newer entries of `k` leads back to what `j` has of an account, fetched code aside. -/
def RestoresAt (a : Address) (j k : Journal) : Prop :=
  ∃ newer, k.entries = newer ++ j.entries ∧
    (undoAllAt a newer k.accounts[a]?).map Account.bare = look j.accounts a

structure Elsewhere (a : Address) (j k : Journal) : Prop where
  entries : ∃ newer, k.entries = newer ++ j.entries ∧ ∀ e ∈ newer, e.Avoids a
  same : k.accounts[a]? = j.accounts[a]?

namespace Elsewhere

variable {b : Address} {e : JournalEntry}

theorem of_eq (entries : k.entries = j.entries) (same : k.accounts = j.accounts) :
    Elsewhere a j k :=
  ⟨⟨[], entries, nofun⟩, by rw [same]⟩

theorem trans (h : Elsewhere a i j) (h' : Elsewhere a j k) : Elsewhere a i k := by
  obtain ⟨older, he, hi⟩ := h.entries
  obtain ⟨newer, he', hj⟩ := h'.entries
  refine ⟨⟨newer ++ older, ?_, fun e hmem => ?_⟩, h'.same.trans h.same⟩
  · rw [he', he, List.append_assoc]
  · exact (List.mem_append.mp hmem).elim (hj e) (hi e)

theorem note (j : Journal) (h : e.Avoids a) : Elsewhere a j (j.note e) :=
  ⟨⟨[e], rfl, fun e' he' => by rwa [List.mem_singleton.mp he']⟩, rfl⟩

section Other

variable (hb : b ≠ a)

include hb

theorem update (j : Journal) (f : Account → Account) : Elsewhere a j (j.update b f) := by
  refine ⟨⟨[], rfl, nofun⟩, ?_⟩
  rw [Journal.update, getElem?_modify, if_neg hb]

theorem touch (j : Journal) : Elsewhere a j (j.touch b) := by
  unfold Journal.touch
  split
  · split
    · exact .of_eq rfl rfl
    · exact (note j (e := .touched b) (.of_restore nofun fun _ => if_neg hb)).trans (update hb _ _)
  · exact .of_eq rfl rfl

theorem raised (j : Journal) : Elsewhere a j (j.raised b) :=
  (touch hb j).trans
    ((note _ (e := .nonceRaised b) (.of_restore nofun fun _ => if_neg hb)).trans (update hb _ _))

theorem opened (j : Journal) : Elsewhere a j.deeper (j.opened b) :=
  ((note _ (e := .created b) (.of_restore nofun fun _ => if_neg hb)).trans (update hb _ _)).trans
    (touch hb _)

theorem setCode (j : Journal) (code : Bytes) : Elsewhere a j (j.setCode b code) := by
  unfold Journal.setCode
  split
  · exact (touch hb j).trans
      ((note _ (e := .codeSet b) (.of_restore nofun fun _ => if_neg hb)).trans (update hb _ _))
  · exact .of_eq rfl rfl

end Other

theorem view (h : Elsewhere a j k) (db : Database) : k.view db a = j.view db a := by
  simp only [Journal.view, h.same]

end Elsewhere

namespace RestoresAt

theorem of_elsewhere (h : Elsewhere a j k) : RestoresAt a j k := by
  obtain ⟨newer, entries, avoided⟩ := h.entries
  refine ⟨newer, entries, ?_⟩
  rw [undoAllAt_avoided avoided, h.same, look]

theorem refl (a : Address) (j : Journal) : RestoresAt a j j := of_elsewhere (.of_eq rfl rfl)

theorem of_extends (h : j.Extends k) : RestoresAt a j k := by
  obtain ⟨newer, m, he, hu, halike⟩ := h.entries
  refine ⟨newer, he, ?_⟩
  rw [← undoAll_getElem? hu a]
  exact halike a

theorem trans (h : RestoresAt a i j) (h' : RestoresAt a j k) : RestoresAt a i k := by
  obtain ⟨older, he, hi⟩ := h
  obtain ⟨newer, he', hj⟩ := h'
  refine ⟨newer ++ older, ?_, ?_⟩
  · rw [he', he, List.append_assoc]
  · rw [undoAllAt, List.foldl_append, ← hi]
    exact undoAllAt_congr hj

theorem revert (h : RestoresAt a j.deeper k) (hl : k.revert j.mark = .ok l) :
    l.entries = j.entries ∧ look l.accounts a = look j.accounts a := by
  obtain ⟨newer, he, hj⟩ := h
  obtain ⟨undone, he', hlength, hundo, -⟩ := revert_eq_ok hl
  have hboth : newer ++ j.entries = undone ++ l.entries := he.symm.trans he'
  obtain ⟨rfl, hentries⟩ := List.append_inj' hboth hlength.symm
  refine ⟨hentries.symm, ?_⟩
  rw [look, undoAll_getElem? hundo a]
  exact hj

end RestoresAt

end Journal

end MeteredVM
