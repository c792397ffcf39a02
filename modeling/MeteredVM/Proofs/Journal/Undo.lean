import Mathlib.Logic.Relation
import MeteredVM.Journal.Load

namespace MeteredVM

def Account.bare (x : Account) : Account := { x with info := { x.info with code := none } }

namespace Accounts

def look (m : Accounts) (a : Address) : Option Account := m[a]?.map Account.bare

def Alike (m n : Accounts) : Prop := ∀ a, look m a = look n a

theorem Alike.refl (m : Accounts) : Alike m m := fun _ => rfl

theorem Alike.symm {m n : Accounts} (h : Alike m n) : Alike n m := fun a => (h a).symm

theorem Alike.trans {l m n : Accounts} (h : Alike l m) (h' : Alike m n) : Alike l n :=
  fun a => (h a).trans (h' a)

theorem look_insert (m : Accounts) (b a : Address) (x : Account) :
    look (m.insert b x) a = if b = a then some x.bare else look m a := by
  simp only [look, Std.ExtTreeMap.getElem?_insert, Std.LawfulEqCmp.compare_eq_iff_eq]
  split <;> rfl

theorem look_erase (m : Accounts) (b a : Address) :
    look (m.erase b) a = if b = a then none else look m a := by
  simp only [look, Std.ExtTreeMap.getElem?_erase, Std.LawfulEqCmp.compare_eq_iff_eq]
  split <;> rfl

theorem getElem?_modify (m : Accounts) (b a : Address) (f : Account → Account) :
    (m.modify b f)[a]? = if b = a then m[b]?.map f else m[a]? := by
  simp only [Std.ExtTreeMap.getElem?_modify, Std.LawfulEqCmp.compare_eq_iff_eq]

theorem modify_eq_self (m : Accounts) (b : Address) {f : Account → Account}
    (hf : ∀ x, m[b]? = some x → f x = x) : m.modify b f = m := by
  apply Std.ExtTreeMap.ext_getElem?
  intro a
  rw [getElem?_modify]
  split
  · rename_i hab
    subst hab
    cases hm : m[b]? with
    | none => rfl
    | some x => rw [Option.map_some, hf x hm]
  · rfl

theorem modify_modify (m : Accounts) (b : Address) (f g : Account → Account) :
    (m.modify b f).modify b g = m.modify b fun x => g (f x) := by
  apply Std.ExtTreeMap.ext_getElem?
  intro a
  simp only [getElem?_modify]
  split
  · simp [Option.map_map, Function.comp_def]
  · rfl

theorem modify_comm (m : Accounts) {b c : Address} (hbc : b ≠ c) (f g : Account → Account) :
    (m.modify b f).modify c g = (m.modify c g).modify b f := by
  apply Std.ExtTreeMap.ext_getElem?
  intro a
  simp only [getElem?_modify]
  by_cases hc : c = a
  · subst hc
    simp [hbc]
  · by_cases hb : b = a
    · subst hb
      simp [hc]
    · simp [hc, hb]

theorem look_modify (m : Accounts) (b a : Address) (f : Account → Account) :
    look (m.modify b f) a = if b = a then m[b]?.map fun x => (f x).bare else look m a := by
  simp only [look, getElem?_modify]
  split
  · rw [Option.map_map]
    rfl
  · rfl

theorem Alike.erase {m n : Accounts} (h : Alike m n) (b : Address) :
    Alike (m.erase b) (n.erase b) := by
  intro a
  rw [look_erase, look_erase, h a]

/-- A change that does not depend on fetched code keeps accounts alike. -/
theorem Alike.modify {m n : Accounts} (h : Alike m n) (b : Address) {f : Account → Account}
    (hf : ∀ x, (f x).bare = (f x.bare).bare) : Alike (m.modify b f) (n.modify b f) := by
  intro a
  have hb := h b
  rw [look_modify, look_modify, h a]
  simp only [look] at hb
  split
  · have hfg : (fun x => (f x).bare) = (fun x => (f x).bare) ∘ Account.bare := funext hf
    rw [hfg, ← Option.map_map, ← Option.map_map, hb]
  · rfl

theorem alike_modify_self (m : Accounts) (b : Address) {f : Account → Account}
    (hf : ∀ x, m[b]? = some x → (f x).bare = x.bare) : Alike (m.modify b f) m := by
  intro a
  rw [look_modify]
  split
  · rename_i hab
    subst hab
    cases hm : m[b]? with
    | none => simp [look, hm]
    | some x => simp [look, hm, hf x hm]
  · rfl

theorem alike_modify_of_eq_some {m : Accounts} {b : Address} {x : Account} (hx : m[b]? = some x)
    {f : Account → Account} (hf : (f x).bare = x.bare) : Alike (m.modify b f) m := by
  apply alike_modify_self
  intro y hy
  rw [hx] at hy
  cases hy
  exact hf

theorem Alike.getElem?_some {m n : Accounts} (h : Alike m n) {a : Address} {x : Account}
    (hx : m[a]? = some x) : ∃ y, n[a]? = some y ∧ y.bare = x.bare := by
  have ha := h a
  simp only [look, hx] at ha
  cases hn : n[a]? with
  | none => simp [hn] at ha
  | some y => exact ⟨y, rfl, by simpa [hn] using ha.symm⟩

theorem Alike.getElem?_none {m n : Accounts} (h : Alike m n) {a : Address}
    (hx : m[a]? = none) : n[a]? = none := by
  have ha := h a
  simpa [look, hx] using ha.symm

end Accounts

namespace Journal

open Accounts

theorem undo_congr {m n r : Accounts} (h : Alike m n) {e : JournalEntry} (hu : undo m e = .ok r) :
    ∃ s, undo n e = .ok s ∧ Alike r s := by
  cases e with
  | loaded a =>
    cases hu
    exact ⟨_, rfl, h.erase a⟩
  | destroyed a target before balance =>
    cases hu
    refine ⟨_, rfl, ?_⟩
    split
    · exact h.modify a fun _ => rfl
    · exact (h.modify a fun _ => rfl).modify target fun _ => rfl
  | touched a | created a | slotChanged a key before | codeSet a =>
    cases hu
    exact ⟨_, rfl, h.modify a fun _ => rfl⟩
  | transferred source target value =>
    cases hu
    exact ⟨_, rfl, (h.modify source fun _ => rfl).modify target fun _ => rfl⟩
  | nonceRaised a =>
    -- The only entry that looks at what it undoes, but at the nonce, which fetched code leaves alone.
    simp only [undo] at hu ⊢
    cases hm : m[a]? with
    | none =>
      rw [hm] at hu
      cases hu
      rw [h.getElem?_none hm]
      exact ⟨n, rfl, h⟩
    | some x =>
      obtain ⟨y, hy, hxy⟩ := h.getElem?_some hm
      have hn : y.info.nonce = x.info.nonce := congrArg (·.info.nonce) hxy
      rw [hm] at hu
      rw [hy]
      by_cases h0 : x.info.nonce = 0
      · simp [h0] at hu
      · simp only [h0, if_false, Except.ok.injEq] at hu
        subst hu
        simp only [hn, h0, if_false]
        exact ⟨_, rfl, h.modify a fun _ => rfl⟩

theorem undoAll_congr {es : List JournalEntry} {m n r : Accounts} (h : Alike m n)
    (hu : undoAll m es = .ok r) : ∃ s, undoAll n es = .ok s ∧ Alike r s := by
  induction es generalizing m n with
  | nil =>
    cases hu
    exact ⟨n, rfl, h⟩
  | cons e es ih =>
    simp only [undoAll] at hu ⊢
    cases hm : undo m e with
    | error fault =>
      rw [hm] at hu
      cases hu
    | ok m' =>
      obtain ⟨n', hn, h'⟩ := undo_congr h hm
      rw [hm] at hu
      rw [hn]
      exact ih h' hu

theorem undoAll_append {es es' : List JournalEntry} {m n : Accounts} (h : undoAll m es = .ok n) :
    undoAll m (es ++ es') = undoAll n es' := by
  induction es generalizing m with
  | nil =>
    cases h
    rfl
  | cons e es ih =>
    simp only [List.cons_append, undoAll] at h ⊢
    cases hm : undo m e with
    | error fault =>
      rw [hm] at h
      cases h
    | ok m' =>
      rw [hm] at h
      exact ih h

/-- Undoing the newer entries of `k` leads back to `j`; meanwhile `k` keeps the log and the
number of open frames. -/
structure Extends (j k : Journal) : Prop where
  hardfork : k.hardfork = j.hardfork
  depth : k.depth = j.depth
  logs : j.logs <:+ k.logs
  entries : ∃ newer m, k.entries = newer ++ j.entries ∧ undoAll k.accounts newer = .ok m ∧
    Alike m j.accounts

theorem Extends.of_alike {j k : Journal} (hf : k.hardfork = j.hardfork) (hd : k.depth = j.depth)
    (hl : j.logs <:+ k.logs) (he : k.entries = j.entries) (ha : Alike k.accounts j.accounts) :
    j.Extends k :=
  ⟨hf, hd, hl, [], k.accounts, he, rfl, ha⟩

theorem Extends.of_undo {j k : Journal} {m : Accounts} (e : JournalEntry)
    (hf : k.hardfork = j.hardfork) (hd : k.depth = j.depth) (hl : j.logs <:+ k.logs)
    (he : k.entries = e :: j.entries) (hu : undo k.accounts e = .ok m) (ha : Alike m j.accounts) :
    j.Extends k := by
  refine ⟨hf, hd, hl, [e], m, he, ?_, ha⟩
  simp only [undoAll, hu]
  rfl

theorem Extends.refl (j : Journal) : j.Extends j :=
  .of_alike rfl rfl (List.suffix_refl _) rfl (Alike.refl _)

theorem Extends.trans {i j k : Journal} (h : i.Extends j) (h' : j.Extends k) : i.Extends k := by
  obtain ⟨older, m, he, hu, ha⟩ := h.entries
  obtain ⟨newer, m', he', hu', ha'⟩ := h'.entries
  -- Undoing the newer entries leads to accounts that are only alike to those of `j`.
  obtain ⟨n, hn, hmn⟩ := undoAll_congr ha'.symm hu
  have hun : undoAll k.accounts (newer ++ older) = .ok n := by rw [undoAll_append hu', hn]
  have hen : k.entries = (newer ++ older) ++ i.entries := by rw [he', he, List.append_assoc]
  exact ⟨h'.hardfork.trans h.hardfork, h'.depth.trans h.depth, h.logs.trans h'.logs,
    newer ++ older, n, hen, hun, hmn.symm.trans ha⟩

def mark (j : Journal) : Checkpoint := j.checkpoint.1

def deeper (j : Journal) : Journal := j.checkpoint.2

/-- The same state: accounts alike, and the same log, entries, depth and refund counter. -/
structure Same (j k : Journal) : Prop where
  hardfork : j.hardfork = k.hardfork
  accounts : Alike j.accounts k.accounts
  logs : j.logs = k.logs
  entries : j.entries = k.entries
  depth : j.depth = k.depth
  refund : j.refund = k.refund

theorem Same.refl (j : Journal) : j.Same j := ⟨rfl, Alike.refl _, rfl, rfl, rfl, rfl⟩

theorem Same.extends {j k : Journal} (h : k.Same j) : j.Extends k :=
  .of_alike h.hardfork h.depth (h.logs ▸ List.suffix_refl _) h.entries h.accounts

/-- Going back from a journal that extends the one at the checkpoint restores it. -/
theorem Extends.revert {j k : Journal} (h : j.deeper.Extends k) :
    ∃ l, k.revert j.mark = .ok l ∧ l.Same j ∧ l.ledger = k.ledger := by
  obtain ⟨newer, m, he, hu, ha⟩ := h.entries
  obtain ⟨logs, hl⟩ := h.logs
  have hd : k.depth = j.depth + 1 := h.depth
  replace he : k.entries = newer ++ j.entries := he
  replace hl : logs ++ j.logs = k.logs := hl
  have hn : k.entries.length - j.entries.length = newer.length := by
    rw [he, List.length_append]
    omega
  have hlen : ¬ k.entries.length < j.entries.length := by
    rw [he, List.length_append]
    omega
  have ht : k.entries.take newer.length = newer := by rw [he, List.take_left]
  have hdr : k.entries.drop newer.length = j.entries := by rw [he, List.drop_left]
  have hlog : k.logs.drop (k.logs.length - j.logs.length) = j.logs := by
    rw [← hl, List.length_append, Nat.add_sub_cancel, List.drop_left]
  have hd0 : ¬ k.depth = 0 := by omega
  let l : Journal :=
    { k with
      accounts := m, depth := k.depth - 1, entries := j.entries, logs := j.logs, refund := j.refund }
  have hr : k.revert j.mark = .ok l := by
    simp only [Journal.revert, mark, checkpoint, if_neg hd0, if_neg hlen, hn, ht, hdr, hlog, hu]
    rfl
  have hdl : l.depth = j.depth := by simp [l, hd]
  exact ⟨l, hr, ⟨h.hardfork, ha, rfl, rfl, hdl, rfl⟩, rfl⟩

/-- Closing a frame and keeping its changes ends in a journal that extends the one before it. -/
theorem Extends.commit {j k : Journal} (h : j.deeper.Extends k) :
    ∃ l, k.commit = .ok l ∧ j.Extends l ∧ l.accounts = k.accounts := by
  have hd : k.depth = j.depth + 1 := h.depth
  have hd0 : ¬ k.depth = 0 := by omega
  have hdl : k.depth - 1 = j.depth := by omega
  exact ⟨{ k with depth := k.depth - 1 }, if_neg hd0,
    ⟨h.hardfork, hdl, h.logs, h.entries⟩, rfl⟩

theorem Extends.committed {j k l : Journal} (h : j.deeper.Extends k) (hl : k.commit = .ok l) :
    j.Extends l := by
  obtain ⟨m, hm, hjm, -⟩ := h.commit
  rw [hl] at hm
  cases hm
  exact hjm

end Journal

end MeteredVM
