import Mathlib.Tactic.SplitIfs
import MeteredVM.Proofs.Journal.View

namespace MeteredVM

def JournalEntry.restore (e : JournalEntry) (a : Address) (x : Account) : Account :=
  match e with
  | .loaded _ => x
  | .touched b => if b = a then { x with flags := { x.flags with touched := false } } else x
  | .destroyed b target before balance =>
    let restored :=
      if b = a then
        { x with
          flags := { x.flags with destroyed := before }
          info := { x.info with balance := x.info.balance + balance } }
      else x
    if b ≠ target ∧ target = a then
      { restored with info := { restored.info with balance := restored.info.balance - balance } }
    else restored
  | .transferred source target value =>
    let restored :=
      if source = a then { x with info := { x.info with balance := x.info.balance + value } } else x
    if target = a then
      { restored with info := { restored.info with balance := restored.info.balance - value } }
    else restored
  | .nonceRaised b =>
    if b = a then { x with info := { x.info with nonce := x.info.nonce - 1 } } else x
  | .created b =>
    if b = a then
      { x with flags := { x.flags with created := false }, info := { x.info with nonce := 0 } }
    else x
  | .slotChanged b key before =>
    if b = a then
      { x with
        slots := match before with
          | some value => x.slots.insert key value
          | none => x.slots.erase key }
    else x
  | .codeSet b =>
    if b = a then { x with info := { x.info with codeHash := emptyCodeHash, code := none } } else x

namespace Journal

open Accounts

theorem getElem?_modify_eq_map (m : Accounts) (b a : Address) (f : Account → Account) :
    (m.modify b f)[a]? = m[a]?.map fun x => if b = a then f x else x := by
  rw [getElem?_modify]
  split
  · rename_i hba
    rw [hba]
  · exact Option.map_id'.symm

/-- Undoing an entry unloads its account or changes accounts one by one. -/
theorem undo_getElem? {m n : Accounts} {e : JournalEntry} (h : undo m e = .ok n) (a : Address) :
    n[a]? = if e = .loaded a then none else m[a]?.map (e.restore a) := by
  cases e with
  | loaded b =>
    cases h
    simp only [Std.ExtTreeMap.getElem?_erase, Std.LawfulEqCmp.compare_eq_iff_eq,
      JournalEntry.loaded.injEq]
    split
    · rfl
    · exact Option.map_id'.symm
  | touched b | created b | slotChanged b key before | codeSet b =>
    cases h
    exact getElem?_modify_eq_map m b a _
  | transferred source target value =>
    cases h
    rw [if_neg JournalEntry.noConfusion, getElem?_modify_eq_map, getElem?_modify_eq_map,
      Option.map_map]
    rfl
  | destroyed b target before balance =>
    cases h
    have hother : JournalEntry.destroyed b target before balance ≠ .loaded a :=
      JournalEntry.noConfusion
    rw [if_neg hother]
    split
    · rename_i hbt
      rw [getElem?_modify_eq_map]
      congr 1
      funext x
      simp only [JournalEntry.restore, hbt, ne_eq, not_true_eq_false, false_and, if_false]
    · rename_i hbt
      rw [getElem?_modify_eq_map, getElem?_modify_eq_map, Option.map_map]
      congr 1
      funext x
      simp only [JournalEntry.restore, hbt, ne_eq, not_false_eq_true, true_and, Function.comp]
  | nonceRaised b =>
    simp only [undo] at h
    rw [if_neg JournalEntry.noConfusion]
    cases hb : m[b]? with
    | none =>
      -- The account whose nonce was raised is not loaded any more, so nothing changes.
      rw [hb] at h
      cases h
      cases ha : m[a]? with
      | none => rfl
      | some x =>
        have hba : b ≠ a := by
          rintro rfl
          rw [ha] at hb
          cases hb
        simp only [Option.map_some, JournalEntry.restore, if_neg hba]
    | some x =>
      rw [hb] at h
      dsimp only at h
      split at h
      · cases h
      · cases h
        exact getElem?_modify_eq_map m b a _

/-- Going back to a checkpoint undoes the entries made since. -/
theorem revert_eq_ok {k l : Journal} {mark : Checkpoint} (h : k.revert mark = .ok l) :
    ∃ undone, k.entries = undone ++ l.entries ∧ l.entries.length = mark.entries ∧
      undoAll k.accounts undone = .ok l.accounts ∧ l.refund = mark.refund ∧
      l.ledger = k.ledger := by
  unfold Journal.revert at h
  split at h
  · cases h
  split at h
  · cases h
  · rename_i hmark
    obtain ⟨m, hm, h⟩ := Except.bind_eq_ok h
    cases h
    refine ⟨k.entries.take (k.entries.length - mark.entries), ?_, ?_, hm, rfl, rfl⟩
    · exact (List.take_append_drop _ _).symm
    · rw [List.length_drop]
      omega

end Journal

structure Facet (α : Type) where
  of : Account → α
  back : JournalEntry → Address → α → α
  /-- The entries that have no part in the value. -/
  ignores : JournalEntry → Bool
  of_congr {x y : Account} (balance : y.info.balance = x.info.balance) (slots : y.slots = x.slots)
    (created : y.flags.created = x.flags.created)
    (destroyed : y.flags.destroyed = x.flags.destroyed) : of y = of x
  of_restore : ∀ e a x, of (JournalEntry.restore e a x) = back e a (of x) := by
    intro e a x
    cases e <;> dsimp only [JournalEntry.restore] <;> split_ifs <;> rfl
  back_of_ignores : ∀ e, ignores e = true → ∀ a v, back e a v = v := by
    intro e h a v
    cases e <;> first | rfl | cases h
  ignores_loaded : ∀ a, ignores (.loaded a) = false := by exact fun _ => rfl
  ignores_touched : ∀ a, ignores (.touched a) = true := by exact fun _ => rfl
  ignores_nonceRaised : ∀ a, ignores (.nonceRaised a) = true := by exact fun _ => rfl
  ignores_codeSet : ∀ a, ignores (.codeSet a) = true := by exact fun _ => rfl

namespace Facet

open Accounts Journal

variable {α : Type} (F : Facet α)

def see (m : Accounts) (a : Address) : Option α := m[a]?.map F.of

def unwind (s : Address → Option α) (e : JournalEntry) (a : Address) : Option α :=
  if e = .loaded a then none else (s a).map (F.back e a)

def unwindAll (s : Address → Option α) : List JournalEntry → Address → Option α
  | [] => s
  | e :: older => unwindAll (F.unwind s e) older

theorem see_ofHardfork (fork : Hardfork) : F.see (ofHardfork fork).accounts = fun _ => none := by
  funext a
  have habsent : (ofHardfork fork).accounts[a]? = none := Std.ExtTreeMap.getElem?_empty
  rw [see, habsent]
  rfl

section Accounts

variable {m n : Accounts} {s : Address → Option α} {e : JournalEntry} {es : List JournalEntry}

theorem see_undo (h : undo m e = .ok n) : F.see n = F.unwind (F.see m) e := by
  funext a
  rw [see, undo_getElem? h a, unwind]
  split
  · rfl
  · rw [see, Option.map_map, Option.map_map]
    congr 1
    funext x
    exact F.of_restore e a x

theorem see_undoAll (h : undoAll m es = .ok n) : F.see n = F.unwindAll (F.see m) es := by
  induction es generalizing m with
  | nil =>
    cases h
    rfl
  | cons e es ih =>
    obtain ⟨l, hl, h⟩ := Except.bind_eq_ok h
    rw [ih h, F.see_undo hl, unwindAll]

theorem see_of_alike (h : Alike m n) : F.see m = F.see n := by
  funext a
  have ha := h a
  have hof : F.of = F.of ∘ Account.bare := by
    funext x
    exact F.of_congr (x := x.bare) rfl rfl rfl rfl
  simp only [look] at ha
  rw [see, see, hof, ← Option.map_map, ← Option.map_map, ha]

theorem see_modify {f : Account → Account} (hf : ∀ x, F.of (f x) = F.of x) (m : Accounts)
    (b : Address) : F.see (m.modify b f) = F.see m := by
  funext a
  rw [see, getElem?_modify_eq_map, Option.map_map, see]
  congr 1
  funext x
  simp only [Function.comp]
  split
  · exact hf x
  · rfl

theorem unwind_of_ignores (h : F.ignores e = true) (s : Address → Option α) :
    F.unwind s e = s := by
  funext a
  have hloaded : e ≠ .loaded a := by
    rintro rfl
    rw [F.ignores_loaded] at h
    cases h
  have hback : F.back e a = fun v => v := funext (F.back_of_ignores e h a)
  rw [unwind, if_neg hloaded, hback, Option.map_id']

theorem unwindAll_of_ignores (h : ∀ e ∈ es, F.ignores e = true) (s : Address → Option α) :
    F.unwindAll s es = s := by
  induction es generalizing s with
  | nil => rfl
  | cons e es ih =>
    rw [unwindAll, F.unwind_of_ignores (h e List.mem_cons_self)]
    exact ih (fun e' he' => h e' (List.mem_cons_of_mem e he')) s

theorem unwindAll_append (s : Address → Option α) (es es' : List JournalEntry) :
    F.unwindAll s (es ++ es') = F.unwindAll (F.unwindAll s es) es' := by
  induction es generalizing s with
  | nil => rfl
  | cons e es ih => exact ih (F.unwind s e)

end Accounts

structure Rests (j k : Journal) : Prop where
  entries : ∃ newer, k.entries = newer ++ j.entries ∧ ∀ e ∈ newer, F.ignores e = true
  see : F.see k.accounts = F.see j.accounts

def Retains (j k : Journal) : Prop :=
  ∃ newer, k.entries = newer ++ j.entries ∧ F.unwindAll (F.see k.accounts) newer = F.see j.accounts

variable {F} {i j k l : Journal} {a : Address} {e : JournalEntry}

theorem Rests.of_eq (entries : k.entries = j.entries) (accounts : k.accounts = j.accounts) :
    F.Rests j k :=
  ⟨⟨[], entries, nofun⟩, by rw [accounts]⟩

theorem Rests.refl (j : Journal) : F.Rests j j := .of_eq rfl rfl

theorem Rests.trans (h : F.Rests i j) (h' : F.Rests j k) : F.Rests i k := by
  obtain ⟨older, he, hi⟩ := h.entries
  obtain ⟨newer, he', hi'⟩ := h'.entries
  refine ⟨⟨newer ++ older, ?_, fun e hmem => ?_⟩, h'.see.trans h.see⟩
  · rw [he', he, List.append_assoc]
  · obtain hmem | hmem := List.mem_append.mp hmem
    · exact hi' e hmem
    · exact hi e hmem

theorem Rests.update (j : Journal) (a : Address) {f : Account → Account}
    (hf : ∀ x, F.of (f x) = F.of x) : F.Rests j (j.update a f) :=
  ⟨⟨[], rfl, nofun⟩, F.see_modify hf j.accounts a⟩

theorem Rests.note (j : Journal) (h : F.ignores e = true) : F.Rests j (j.note e) :=
  ⟨⟨[e], rfl, fun e' he' => by rwa [List.mem_singleton.mp he']⟩, rfl⟩

theorem Rests.touch (j : Journal) (a : Address) : F.Rests j (j.touch a) := by
  unfold Journal.touch
  split
  · split
    · exact .refl j
    · exact (Rests.note j (F.ignores_touched a)).trans
        (.update _ a fun _ => F.of_congr rfl rfl rfl rfl)
  · exact .refl j

theorem Rests.raised (j : Journal) (a : Address) : F.Rests j (j.raised a) :=
  (Rests.touch j a).trans ((Rests.note _ (F.ignores_nonceRaised a)).trans
    (.update _ a fun _ => F.of_congr rfl rfl rfl rfl))

theorem Rests.setCode (j : Journal) (a : Address) (code : Bytes) :
    F.Rests j (j.setCode a code) := by
  unfold Journal.setCode
  split
  · exact (Rests.touch j a).trans ((Rests.note _ (F.ignores_codeSet a)).trans
      (.update _ a fun _ => F.of_congr rfl rfl rfl rfl))
  · exact .refl j

theorem Rests.commit (h : j.commit = .ok k) : F.Rests j k := by
  rw [commit_eq_ok h]
  exact .of_eq rfl rfl

theorem Rests.of_deeper (h : F.Rests j k) : F.Rests j.deeper k := ⟨h.entries, h.see⟩

theorem Rests.recordRefund {amount : Int} (h : j.recordRefund amount = .ok k) : F.Rests j k := by
  rw [recordRefund_eq_ok h]
  exact .of_eq rfl rfl

/-- Opening the frame of a creation marks the account as created and does nothing else that matters. -/
theorem Rests.opened (hcreated : F.ignores (.created a) = true)
    (hof : ∀ (x : Account) (info : AccountInfo), info.balance = x.info.balance →
      F.of { x with flags := { x.flags with created := true }, info := info } = F.of x)
    (j : Journal) : F.Rests j (j.opened a) := by
  have hdeeper : F.Rests j j.deeper := .of_eq rfl rfl
  have hcreates := hdeeper.trans ((Rests.note _ hcreated).trans (.update _ a fun x =>
    hof x { x.info with code := none, nonce := if j.clearsEmpty then 1 else x.info.nonce } rfl))
  exact hcreates.trans (.touch _ a)

theorem Rests.destroy {target : Address} {x : Account}
    (hF : F.ignores (.destroyed a target x.flags.destroyed x.info.balance) = true)
    (hof : ∀ (y : Account) (w : Word) (d : Bool), F.of { y with
      info := { y.info with balance := w }, flags := { y.flags with destroyed := d } } = F.of y)
    (j : Journal) : F.Rests j (j.destroy a target x) := by
  by_cases hat : a = target
  · subst hat
    rw [destroy_self]
    exact (Rests.update j a fun y => hof y 0 true).trans (.note _ hF)
  · rw [destroy_of_ne j hat]
    refine (Rests.update j a fun y => hof y 0 true).trans ((Rests.touch _ target).trans
      ((Rests.update _ target fun y => ?_).trans (.note _ hF)))
    exact hof y _ y.flags.destroyed

theorem Retains.refl (j : Journal) : F.Retains j j := ⟨[], rfl, rfl⟩

theorem Retains.trans (h : F.Retains i j) (h' : F.Retains j k) : F.Retains i k := by
  obtain ⟨older, he, hs⟩ := h
  obtain ⟨newer, he', hs'⟩ := h'
  refine ⟨newer ++ older, ?_, ?_⟩
  · rw [he', he, List.append_assoc]
  · rw [F.unwindAll_append, hs', hs]

theorem Rests.retains (h : F.Rests j k) : F.Retains j k := by
  obtain ⟨newer, he, hi⟩ := h.entries
  exact ⟨newer, he, (F.unwindAll_of_ignores hi _).trans h.see⟩

theorem Retains.of_extends (h : j.Extends k) : F.Retains j k := by
  obtain ⟨newer, m, he, hu, ha⟩ := h.entries
  exact ⟨newer, he, (F.see_undoAll hu).symm.trans (F.see_of_alike ha)⟩

/-- What undoing the newest entry leads back to, if the others have no part in the values. -/
theorem Retains.unwind (h : F.Retains i k) (hij : F.Rests i j) (he : k.entries = e :: j.entries) :
    F.unwind (F.see k.accounts) e = F.see j.accounts := by
  obtain ⟨newer, hnewer, hs⟩ := h
  obtain ⟨ignored, hignored, hignores⟩ := hij.entries
  have hsplit : newer = e :: ignored := by
    rw [he, hignored, ← List.cons_append] at hnewer
    exact (List.append_cancel_right hnewer).symm
  rw [hsplit, unwindAll, F.unwindAll_of_ignores hignores] at hs
  rw [hs, hij.see]

theorem Retains.revert (h : F.Retains j.deeper k) (hl : k.revert j.mark = .ok l) :
    F.see l.accounts = F.see j.accounts ∧ l.entries = j.entries := by
  obtain ⟨newer, he, hs⟩ := h
  obtain ⟨undone, he', hlength, hundo, -⟩ := revert_eq_ok hl
  have hboth : newer ++ j.entries = undone ++ l.entries := he.symm.trans he'
  obtain ⟨rfl, hentries⟩ := List.append_inj' hboth hlength.symm
  exact ⟨(F.see_undoAll hundo).trans hs, hentries.symm⟩

def balance : Facet Word where
  of x := x.info.balance
  back e a w :=
    match e with
    | .destroyed b target _ amount =>
      let restored := if b = a then w + amount else w
      if b ≠ target ∧ target = a then restored - amount else restored
    | .transferred source target value =>
      let restored := if source = a then w + value else w
      if target = a then restored - value else restored
    | _ => w
  ignores
    | .loaded _ | .destroyed .. | .transferred .. => false
    | _ => true
  of_congr balance _ _ _ := balance

def slots : Facet Slots where
  of x := x.slots
  back e a m :=
    match e with
    | .slotChanged b key before =>
      if b = a then
        match before with
        | some value => m.insert key value
        | none => m.erase key
      else m
    | _ => m
  ignores
    | .loaded _ | .slotChanged .. => false
    | _ => true
  of_congr _ slots _ _ := slots

def created : Facet Bool where
  of x := x.flags.created
  back e a v :=
    match e with
    | .created b => if b = a then false else v
    | _ => v
  ignores
    | .loaded _ | .created _ => false
    | _ => true
  of_congr _ _ created _ := created

def destroyed : Facet Bool where
  of x := x.flags.destroyed
  back e a v :=
    match e with
    | .destroyed b _ before _ => if b = a then before else v
    | _ => v
  ignores
    | .loaded _ | .destroyed .. => false
    | _ => true
  of_congr _ _ _ destroyed := destroyed

end Facet

namespace Journal

/-- The change concerns balances, nonces, code and touching at most. -/
structure Calm (j k : Journal) : Prop where
  slots : Facet.slots.Rests j k
  created : Facet.created.Rests j k
  destroyed : Facet.destroyed.Rests j k
  ledger : k.ledger = j.ledger
  refund : k.refund = j.refund

namespace Calm

variable {i j k : Journal}

theorem refl (j : Journal) : j.Calm j := ⟨.refl j, .refl j, .refl j, rfl, rfl⟩

theorem trans (h : i.Calm j) (h' : j.Calm k) : i.Calm k :=
  ⟨h.slots.trans h'.slots, h.created.trans h'.created, h.destroyed.trans h'.destroyed,
    h'.ledger.trans h.ledger, h'.refund.trans h.refund⟩

theorem deeper (j : Journal) : j.Calm j.deeper :=
  ⟨.of_eq rfl rfl, .of_eq rfl rfl, .of_eq rfl rfl, rfl, rfl⟩

theorem log (j : Journal) (l : Log) : j.Calm (j.log l) :=
  ⟨.of_eq rfl rfl, .of_eq rfl rfl, .of_eq rfl rfl, rfl, rfl⟩

theorem commit (h : j.commit = .ok k) : j.Calm k := by
  refine ⟨.commit h, .commit h, .commit h, ?_, ?_⟩ <;> rw [commit_eq_ok h]

theorem update (j : Journal) (a : Address) {f : Account → Account}
    (slots : ∀ x, (f x).slots = x.slots) (created : ∀ x, (f x).flags.created = x.flags.created)
    (destroyed : ∀ x, (f x).flags.destroyed = x.flags.destroyed) : j.Calm (j.update a f) :=
  ⟨.update j a slots, .update j a created, .update j a destroyed, rfl, rfl⟩

theorem note (j : Journal) {e : JournalEntry} (slots : Facet.slots.ignores e = true)
    (created : Facet.created.ignores e = true) (destroyed : Facet.destroyed.ignores e = true) :
    j.Calm (j.note e) :=
  ⟨.note j slots, .note j created, .note j destroyed, rfl, rfl⟩

theorem touch (j : Journal) (a : Address) : j.Calm (j.touch a) :=
  ⟨.touch j a, .touch j a, .touch j a, by rw [touch_eq], touch_refund j a⟩

theorem raised (j : Journal) (a : Address) : j.Calm (j.raised a) :=
  (touch j a).trans ((note _ rfl rfl rfl).trans
    (update _ a (fun _ => rfl) (fun _ => rfl) fun _ => rfl))

theorem raiseNonce {a : Address} {n : Nat} (h : j.raiseNonce a = some (n, k)) : j.Calm k := by
  obtain ⟨rfl, -⟩ := raiseNonce_eq_some h
  exact raised j a

theorem setCode (j : Journal) (a : Address) (code : Bytes) : j.Calm (j.setCode a code) := by
  unfold Journal.setCode
  split
  · exact (touch j a).trans ((note _ rfl rfl rfl).trans
      (update _ a (fun _ => rfl) (fun _ => rfl) fun _ => rfl))
  · exact refl j

theorem setBalance (j : Journal) (a : Address) (w : Word) : j.Calm (j.setBalance a w) :=
  update j a (fun _ => rfl) (fun _ => rfl) fun _ => rfl

theorem transfer (source target : Address) (value : Word) (j : Journal) :
    j.Calm (leftBy (Journal.transfer source target value) j) :=
  transfer_rule refl trans touch setBalance (fun _ => note _ rfl rfl rfl) j

end Calm

end Journal

end MeteredVM
