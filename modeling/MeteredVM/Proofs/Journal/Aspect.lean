import MeteredVM.Proofs.Journal.Apart

namespace MeteredVM

open Accounts

namespace JournalEntry

/-- A deployment may be undone before or after other changes. -/
theorem restore_codeSet (e : JournalEntry) (a : Address) (x : Account) :
    (e.restore a ((codeSet a).restore a x)).bare = ((codeSet a).restore a (e.restore a x)).bare := by
  cases e <;> dsimp only [restore] <;> split_ifs <;> rfl

end JournalEntry

/-- A part of an account that does not depend on fetched code or on whether it was created. What undoing
makes of it depends on nothing else. -/
structure Aspect (α : Type) where
  of : Account → α
  of_bare : ∀ x, of x.bare = of x
  of_created : ∀ x created, of { x with flags := { x.flags with created := created } } = of x
  of_restore : ∀ {x y}, of x = of y → ∀ e a, of (JournalEntry.restore e a x) = of (e.restore a y)

namespace Aspect

open Journal

variable {α : Type} (F : Aspect α)

def see (m : Accounts) (a : Address) : Option α := m[a]?.map F.of

def Restores (j k : Journal) : Prop :=
  ∃ newer, k.entries = newer ++ j.entries ∧
    ∀ a, (undoAllAt a newer k.accounts[a]?).map F.of = F.see j.accounts a

variable {F} {e : JournalEntry} {entries : List JournalEntry} {a : Address} {x y : Option Account}
  {i j k l m : Journal} {mark : Checkpoint}

theorem map_of_bare (h : x.map Account.bare = y.map Account.bare) : x.map F.of = y.map F.of := by
  have hof : F.of = F.of ∘ Account.bare := funext fun z => (F.of_bare z).symm
  rw [hof, ← Option.map_map, ← Option.map_map, h]

theorem exists_of_see {m n : Accounts} {z : Account} (h : F.see m = F.see n) (hz : m[a]? = some z) :
    ∃ w, n[a]? = some w ∧ F.of w = F.of z := by
  have ha : F.see n a = F.see m a := (congrFun h a).symm
  rw [see, see, hz] at ha
  exact Option.map_eq_some_iff.mp ha

theorem undoAt_congr (h : x.map F.of = y.map F.of) :
    (e.undoAt a x).map F.of = (e.undoAt a y).map F.of := by
  unfold JournalEntry.undoAt
  split
  · rfl
  · cases x with
    | none =>
      cases y with
      | none => rfl
      | some y => cases h
    | some x =>
      cases y with
      | none => cases h
      | some y => exact congrArg some (F.of_restore (Option.some.inj h) e a)

theorem undoAllAt_congr (h : x.map F.of = y.map F.of) :
    (undoAllAt a entries x).map F.of = (undoAllAt a entries y).map F.of := by
  induction entries generalizing x y with
  | nil => exact h
  | cons e entries ih => exact ih (undoAt_congr h)

theorem undoAt_codeSet (e : JournalEntry) (a : Address) (x : Option Account) :
    (e.undoAt a ((JournalEntry.codeSet a).undoAt a x)).map F.of =
      ((JournalEntry.codeSet a).undoAt a (e.undoAt a x)).map F.of := by
  apply map_of_bare
  have hset : ∀ y, (JournalEntry.codeSet a).undoAt a y = y.map ((JournalEntry.codeSet a).restore a) :=
    fun y => if_neg nofun
  rw [hset, hset]
  unfold JournalEntry.undoAt
  split
  · rfl
  · cases x with
    | none => rfl
    | some x => exact congrArg some (e.restore_codeSet a x)

theorem undoAllAt_none (entries : List JournalEntry) (a : Address) : undoAllAt a entries none = none := by
  induction entries with
  | nil => rfl
  | cons e entries ih =>
    have hnone : e.undoAt a none = none := by
      unfold JournalEntry.undoAt
      split <;> rfl
    rw [undoAllAt, List.foldl_cons, hnone]
    exact ih

/-- What undoing each entry keeps, undoing all of them keeps. -/
theorem of_undoAllAt {P : Account → Prop} {w : Account}
    (hP : ∀ (e : JournalEntry) x, P x → P (e.restore a x))
    (h : undoAllAt a entries x = some w) (hx : ∀ y, x = some y → P y) : P w := by
  induction entries generalizing x with
  | nil => exact hx w h
  | cons e entries ih =>
    refine ih h fun y hy => ?_
    change e.undoAt a x = some y at hy
    unfold JournalEntry.undoAt at hy
    split at hy
    · cases hy
    · obtain ⟨z, hz, rfl⟩ := Option.map_eq_some_iff.mp hy
      exact hP e z (hx z hz)

theorem undoAllAt_codeSet (entries : List JournalEntry) (a : Address) (x : Option Account) :
    (undoAllAt a entries ((JournalEntry.codeSet a).undoAt a x)).map F.of =
      ((JournalEntry.codeSet a).undoAt a (undoAllAt a entries x)).map F.of := by
  induction entries generalizing x with
  | nil => rfl
  | cons e entries ih => exact (undoAllAt_congr (undoAt_codeSet e a x)).trans (ih _)

namespace Restores

theorem of_eq (entries : k.entries = j.entries) (h : F.see k.accounts = F.see j.accounts) :
    F.Restores j k :=
  ⟨[], entries, congrFun h⟩

theorem of_extends (h : j.Extends k) : F.Restores j k := by
  obtain ⟨newer, m, he, hu, halike⟩ := h.entries
  refine ⟨newer, he, fun a => ?_⟩
  rw [← undoAll_getElem? hu a]
  exact map_of_bare (halike a)

theorem trans (h : F.Restores i j) (h' : F.Restores j k) : F.Restores i k := by
  obtain ⟨older, he, hi⟩ := h
  obtain ⟨newer, he', hj⟩ := h'
  refine ⟨newer ++ older, ?_, fun a => ?_⟩
  · rw [he', he, List.append_assoc]
  · rw [undoAllAt, List.foldl_append, ← hi a]
    exact undoAllAt_congr (hj a)

theorem note (j : Journal) (hloaded : ∀ a, e ≠ .loaded a)
    (he : ∀ a x, F.of (e.restore a x) = F.of x) : F.Restores j (j.note e) := by
  refine ⟨[e], rfl, fun a => ?_⟩
  change (e.undoAt a j.accounts[a]?).map F.of = F.see j.accounts a
  rw [JournalEntry.undoAt, if_neg (hloaded a), Option.map_map, see]
  congr 1
  exact funext (he a)

theorem commit (committed : j.commit = .ok k) : F.Restores j k := by
  rw [commit_eq_ok committed]
  exact of_eq rfl rfl

theorem loaded (h : F.Restores j k) (ha : (j.accounts[a]?).isSome) : (k.accounts[a]?).isSome := by
  obtain ⟨newer, -, hj⟩ := h
  have hback := congrArg Option.isSome (hj a)
  rw [see, Option.isSome_map, Option.isSome_map, ha] at hback
  cases hk : k.accounts[a]? with
  | some x => rfl
  | none =>
    rw [hk, undoAllAt_none] at hback
    cases hback

theorem revert (h : F.Restores j.deeper k) (reverted : k.revert j.mark = .ok l) :
    l.entries = j.entries ∧ F.see l.accounts = F.see j.accounts := by
  obtain ⟨newer, he, hj⟩ := h
  obtain ⟨undone, he', hlength, hundo, -⟩ := revert_eq_ok reverted
  have hboth : newer ++ j.entries = undone ++ l.entries := he.symm.trans he'
  obtain ⟨rfl, hentries⟩ := List.append_inj' hboth hlength.symm
  refine ⟨hentries.symm, funext fun a => ?_⟩
  rw [see, undoAll_getElem? hundo a]
  exact hj a

theorem undone (h : F.Restores j.deeper k) (reverted : k.revert j.mark = .ok l) :
    F.Restores j l := by
  obtain ⟨hentries, hsee⟩ := h.revert reverted
  exact of_eq hentries hsee

/-- A creation is undone by clearing what it has set, for there was neither code nor a nonce. -/
theorem create (opened : j.createCheckpoint a = .ok (mark, k)) : F.Restores j.deeper k := by
  obtain ⟨-, rfl, x, hx, -, hnonce⟩ := createCheckpoint_eq_ok opened
  refine .trans ?_ (of_extends (touch_extends _ a))
  refine ⟨[.created a], rfl, fun b => ?_⟩
  change ((JournalEntry.created a).undoAt b _).map F.of = F.see j.deeper.accounts b
  rw [Journal.update, getElem?_modify]
  by_cases hab : a = b
  · subst hab
    have hdeeper : j.deeper.accounts[a]? = some x := hx
    have hnoted : (j.deeper.note (.created a)).accounts[a]? = some x := hx
    simp only [if_true, hnoted, hdeeper, see, Option.map_some, JournalEntry.undoAt, reduceCtorEq,
      if_false, JournalEntry.restore]
    have hcreated := F.of_created { x.bare with info := { x.bare.info with nonce := 0 } } false
    have hsame : ({ x.bare with info := { x.bare.info with nonce := 0 } } : Account) = x.bare := by
      simp only [Account.bare, ← hnonce]
    rw [hsame, F.of_bare] at hcreated
    rw [← hcreated]
    simp only [Account.bare, hnonce]
  · have havoids : (JournalEntry.created a).Avoids b := .of_restore (by rintro ⟨⟩) fun _ => if_neg hab
    rw [if_neg hab, havoids]
    rfl

/-- Code is deployed at an account that had none, whatever has been done to it since. -/
theorem setCode (h : F.Restores k m)
    (hfree : ∀ x, k.accounts[a]? = some x → x.info.codeHash = emptyCodeHash) (code : Bytes) :
    F.Restores k (m.setCode a code) := by
  unfold Journal.setCode
  split
  · rename_i z hz
    obtain ⟨newer, he, hk⟩ := h.trans (of_extends (touch_extends m a))
    refine ⟨.codeSet a :: newer, congrArg (JournalEntry.codeSet a :: ·) he, fun b => ?_⟩
    have hk := hk b
    simp only [Journal.update, Journal.note, getElem?_modify] at hk ⊢
    by_cases hab : a = b
    · subst hab
      -- Undoing it first leaves no code, and that is what undoing the rest leads back to.
      have hundo : (JournalEntry.codeSet a).undoAt a ((m.touch a).accounts[a]?.map fun x =>
          { x with info := x.info.withCode code }) =
          (JournalEntry.codeSet a).undoAt a (m.touch a).accounts[a]? := by
        simp only [JournalEntry.undoAt, reduceCtorEq, if_false, Option.map_map]
        congr 1
        funext x
        simp only [Function.comp, JournalEntry.restore, if_true, AccountInfo.withCode]
      rw [if_pos rfl]
      change (undoAllAt a newer ((JournalEntry.codeSet a).undoAt a _)).map F.of = _
      rw [hundo, undoAllAt_codeSet, undoAt_congr hk, see]
      cases hx : k.accounts[a]? with
      | none => rfl
      | some x =>
        have hbare : ((JournalEntry.codeSet a).restore a x).bare = x.bare := by
          simp only [JournalEntry.restore, if_true, Account.bare, ← hfree x hx]
        exact congrArg some (by rw [← F.of_bare, hbare, F.of_bare])
    · rw [if_neg hab]
      have havoids : (JournalEntry.codeSet a).Avoids b := .of_restore (by rintro ⟨⟩) fun _ => if_neg hab
      change (undoAllAt b newer ((JournalEntry.codeSet a).undoAt b _)).map F.of = _
      rw [havoids]
      exact hk
  · exact h

/-- A creation and the deployment at its end can be undone as one change. -/
theorem deploy (opened : j.createCheckpoint a = .ok (mark, k)) (ran : F.Restores k l)
    (committed : l.commit = .ok m) (code : Bytes) : F.Restores j (m.setCode a code) := by
  have hdeeper : F.Restores j j.deeper := of_eq rfl rfl
  have hcreated : F.Restores j k := hdeeper.trans (.create opened)
  have hm : F.Restores k m := ran.trans (.commit committed)
  refine hcreated.trans (hm.setCode ?_ code)
  obtain ⟨-, rfl, x, hx, hfree, -⟩ := createCheckpoint_eq_ok opened
  intro y hy
  have hopened : (j.opened a).accounts[a]? = _ := touched_loaded (x := _) (by
    simp only [Journal.update, Journal.note, getElem?_modify, if_true]
    exact congrArg (Option.map _) hx)
  rw [hopened] at hy
  cases hy
  exact hfree

end Restores

variable (F)

structure Rests (j k : Journal) : Prop where
  hardfork : k.hardfork = j.hardfork
  restores : F.Restores j k
  same : F.see k.accounts = F.see j.accounts

variable {F}

namespace Rests

theorem of_eq (hardfork : k.hardfork = j.hardfork) (entries : k.entries = j.entries)
    (accounts : k.accounts = j.accounts) : F.Rests j k :=
  ⟨hardfork, .of_eq entries (congrArg F.see accounts), congrArg F.see accounts⟩

theorem refl (j : Journal) : F.Rests j j := of_eq rfl rfl rfl

theorem trans (h : F.Rests i j) (h' : F.Rests j k) : F.Rests i k :=
  ⟨h'.hardfork.trans h.hardfork, h.restores.trans h'.restores, h'.same.trans h.same⟩

theorem update (j : Journal) (b : Address) {f : Account → Account} (hf : ∀ x, F.of (f x) = F.of x) :
    F.Rests j (j.update b f) := by
  have same : F.see (j.update b f).accounts = F.see j.accounts := by
    funext a
    rw [see, see, Journal.update, getElem?_modify_eq_map, Option.map_map]
    congr 1
    funext x
    simp only [Function.comp]
    split
    · exact hf x
    · rfl
  exact ⟨rfl, .of_eq rfl same, same⟩

theorem note (j : Journal) (hloaded : ∀ a, e ≠ .loaded a)
    (he : ∀ a x, F.of (e.restore a x) = F.of x) : F.Rests j (j.note e) :=
  ⟨rfl, .note j hloaded he, rfl⟩

end Rests

end Aspect

end MeteredVM
