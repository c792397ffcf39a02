import MeteredVM.Proofs.Journal.Facet
import MeteredVM.Proofs.Journal.Operations

namespace MeteredVM

open Relation

def slotIn (s : Address → Option Slots) (a : Address) (key : Word) : Option Word :=
  (s a).bind fun m => m[key]?

namespace Journal

def slot? (j : Journal) (a : Address) (key : Word) : Option Word :=
  slotIn (Facet.slots.see j.accounts) a key

def initial? (j : Journal) (a : Address) (key : Word) : Option Word := j.ledger.initial? ⟨a, key⟩

variable {db : Database} {i j k l : Journal} {a : Address} {key : Word} {x : Account}

theorem slot?_of_loaded (hx : j.accounts[a]? = some x) (key : Word) :
    j.slot? a key = x.slots[key]? := by
  simp only [slot?, slotIn, Facet.see, hx]
  rfl

theorem slot?_of_rests (h : Facet.slots.Rests j k) (a : Address) (key : Word) :
    k.slot? a key = j.slot? a key := by
  rw [slot?, h.see, slot?]

/-- Undoing an entry loads no slot but one that the entry has changed. -/
theorem slotIn_unwind {s : Address → Option Slots} {e : JournalEntry}
    (h : (slotIn (Facet.slots.unwind s e) a key).isSome) :
    (slotIn s a key).isSome ∨ ∃ v, e = .slotChanged a key (some v) := by
  cases hi : Facet.slots.ignores e with
  | true =>
    rw [Facet.slots.unwind_of_ignores hi] at h
    exact .inl h
  | false =>
    cases e with
    | loaded b =>
      left
      by_cases hba : b = a
      · simp [slotIn, Facet.unwind, hba] at h
      · simpa [slotIn, Facet.unwind, hba, Facet.slots] using h
    | slotChanged b key' before =>
      simp only [slotIn, Facet.unwind, Facet.slots, reduceCtorEq, if_false] at h ⊢
      cases hs : s a with
      | none => simp [hs] at h
      | some m =>
        simp only [hs, Option.map_some, Option.bind_some] at h ⊢
        split at h
        · rename_i hba
          subst hba
          cases before with
          | none =>
            rw [Std.ExtTreeMap.getElem?_erase] at h
            split at h
            · cases h
            · exact .inl h
          | some v =>
            simp only [Std.ExtTreeMap.getElem?_insert, Std.LawfulEqCmp.compare_eq_iff_eq] at h
            split at h
            · rename_i hkey
              exact .inr ⟨v, by rw [hkey]⟩
            · exact .inl h
        · exact .inl h
    | touched b | destroyed b target before balance | transferred source target value
    | nonceRaised b | created b | codeSet b => cases hi

theorem slotIn_unwindAll {s : Address → Option Slots} {es : List JournalEntry}
    (h : (slotIn (Facet.slots.unwindAll s es) a key).isSome) :
    (slotIn s a key).isSome ∨ ∃ v, .slotChanged a key (some v) ∈ es := by
  induction es generalizing s with
  | nil => exact .inl h
  | cons e es ih =>
    obtain h | ⟨v, hv⟩ := ih h
    · obtain h | ⟨v, rfl⟩ := slotIn_unwind h
      · exact .inl h
      · exact .inr ⟨v, List.mem_cons_self⟩
    · exact .inr ⟨v, List.mem_cons_of_mem e hv⟩

/-- The initial value of every slot is recorded that is loaded, or that undoing changes would load. -/
structure Recorded (j : Journal) : Prop where
  loaded {a : Address} {key : Word} (h : (j.slot? a key).isSome) : (j.initial? a key).isSome
  changed {a : Address} {key v : Word} (h : .slotChanged a key (some v) ∈ j.entries) :
    (j.initial? a key).isSome

theorem Recorded.rests (h : j.Recorded) (hk : Facet.slots.Rests j k) (hl : k.ledger = j.ledger) :
    k.Recorded := by
  obtain ⟨newer, he, hi⟩ := hk.entries
  refine ⟨fun {a key} hs => ?_, fun {a key v} hv => ?_⟩
  · rw [slot?_of_rests hk] at hs
    rw [initial?, hl]
    exact h.loaded hs
  · rw [initial?, hl]
    rw [he] at hv
    obtain hv | hv := List.mem_append.mp hv
    · cases hi _ hv
    · exact h.changed hv

theorem Recorded.revert {mark : Checkpoint} (h : k.Recorded) (hl : k.revert mark = .ok l) :
    l.Recorded := by
  obtain ⟨undone, he, -, hundo, -, hledger⟩ := revert_eq_ok hl
  refine ⟨fun {a key} hs => ?_, fun {a key v} hv => ?_⟩
  · rw [slot?, Facet.slots.see_undoAll hundo] at hs
    rw [initial?, hledger]
    obtain hs | ⟨v, hv⟩ := slotIn_unwindAll hs
    · exact h.loaded hs
    · exact h.changed (he ▸ List.mem_append_left _ hv)
  · rw [initial?, hledger]
    exact h.changed (he ▸ List.mem_append_right _ hv)

def written (j : Journal) (a : Address) (key present new : Word) : Journal :=
  (j.update a fun y => { y with slots := y.slots.insert key new }).note
    (.slotChanged a key (some present))

theorem slot?_insert (hx : j.accounts[a]? = some x) {v : Word}
    (hk : k.accounts = j.accounts.modify a fun y => { y with slots := y.slots.insert key v })
    (b : Address) (key' : Word) :
    k.slot? b key' = if a = b ∧ key = key' then some v else j.slot? b key' := by
  by_cases hab : a = b
  · subst hab
    have hk' : k.accounts[a]? = some { x with slots := x.slots.insert key v } := by
      rw [hk, Accounts.getElem?_modify, if_pos rfl, hx]
      rfl
    simp only [slot?_of_loaded hk', slot?_of_loaded hx, Std.ExtTreeMap.getElem?_insert,
      Std.LawfulEqCmp.compare_eq_iff_eq, true_and]
  · have hk' : k.accounts[b]? = j.accounts[b]? := by
      rw [hk, Accounts.getElem?_modify, if_neg hab]
    simp only [slot?, slotIn, Facet.see, hk', hab, false_and, if_false]

theorem slot?_load {b : Address} (absent : j.accounts[b]? = none)
    (hk : k.accounts = j.accounts.insert b (fresh db b)) (a : Address) (key : Word) :
    k.slot? a key = j.slot? a key := by
  simp only [slot?, slotIn, Facet.see, hk, Std.ExtTreeMap.getElem?_insert,
    Std.LawfulEqCmp.compare_eq_iff_eq]
  by_cases hba : b = a
  · subst hba
    simp [absent, Facet.slots, fresh_slots]
  · simp only [hba, if_false]

/-- A write looks at the slot, and changes it unless it has the new value. -/
theorem writeSlot_eq_ok {new : Word} {found : Loaded SlotChange}
    (h : writeSlot db a key new j = .ok found k) :
    ∃ i x, Looks db j i ∧ i.accounts[a]? = some x ∧ x.slots[key]? = some found.value.present ∧
      found.value.initial = (i.initial? a key).getD found.value.present ∧
      found.value.new = new ∧
      k = if found.value.present = new then i else i.written a key found.value.present new := by
  have hshows : Shows db (readSlot db a key) j _ := readSlot_shows a key j
  simp only [writeSlot, bind, EStateM.bind] at h
  cases hread : readSlot db a key j with
  | error e i =>
    rw [hread] at h
    cases h
  | ok v i =>
    rw [hread] at h
    obtain ⟨hlooks, x, hx, hv⟩ := hshows.ok hread
    by_cases hsame : v.value = new
    · subst hsame
      simp only [ne_eq, not_true_eq_false, if_false] at h
      cases h
      exact ⟨_, x, hlooks, hx, hv, rfl, rfl, (if_pos rfl).symm⟩
    · simp only [hsame, ne_eq, not_false_eq_true, if_true] at h
      cases h
      exact ⟨_, x, hlooks, hx, hv, rfl, rfl, (if_neg hsame).symm⟩

theorem writeSlot_left (db : Database) (a : Address) (key new : Word) (j : Journal) :
    ∃ i, Looks db j i ∧ (leftBy (writeSlot db a key new) j = i ∨
      ∃ x present, i.accounts[a]? = some x ∧ x.slots[key]? = some present ∧
        leftBy (writeSlot db a key new) j = i.written a key present new) := by
  obtain ⟨i, hlooks, hi⟩ : Alters db (writeSlot db a key new) j := writeSlot_alters a key new j
  cases hwrite : writeSlot db a key new j with
  | ok found k =>
    obtain ⟨i, x, hlooks, hx, hs, -, -, hk⟩ := writeSlot_eq_ok hwrite
    rw [leftBy_eq_of_ok hwrite]
    refine ⟨i, hlooks, ?_⟩
    split at hk
    · exact .inl hk
    · exact .inr ⟨x, _, hx, hs, hk⟩
  | error outage k =>
    rw [hwrite] at hi
    rw [leftBy_eq_of_error hwrite]
    exact ⟨i, hlooks, .inl hi⟩

/-- What a change does to the ledger: it records values of the database, or zeros for accounts created
in the transaction. -/
structure Records (db : Database) (j k : Journal) : Prop where
  kept {a : Address} {key v : Word} (h : j.initial? a key = some v) : k.initial? a key = some v
  added {a : Address} {key v : Word} (h : k.initial? a key = some v) :
    j.initial? a key = some v ∨ v = db.slot a key ∨ v = 0 ∧ (j.view db a).created = true
  recorded (h : j.Recorded) : k.Recorded

theorem Records.of_ledger (hl : k.ledger = j.ledger) (hr : j.Recorded → k.Recorded) :
    Records db j k := by
  refine ⟨fun h => ?_, fun h => .inl ?_, hr⟩
  · rwa [initial?, hl]
  · rwa [initial?, hl] at h

theorem Records.of_rests (hk : Facet.slots.Rests j k) (hl : k.ledger = j.ledger) :
    Records db j k :=
  .of_ledger hl fun h => h.rests hk hl

theorem Calm.records (h : j.Calm k) : Records db j k := .of_rests h.slots h.ledger

theorem Records.trans (h : Records db i j) (h' : Records db j k) (hv : j.view db = i.view db) :
    Records db i k := by
  refine ⟨fun hi => h'.kept (h.kept hi), fun hk => ?_, fun hi => h'.recorded (h.recorded hi)⟩
  rw [← hv]
  obtain hj | hnew := h'.added hk
  · rw [hv]
    exact h.added hj
  · exact .inr hnew

/-- A slot that is not loaded may be recorded already, and then the record stays. -/
theorem initial?_fetchedSlot (j : Journal) (b : Address) (key v : Word) (a : Address) (key' : Word) :
    (j.fetchedSlot b key v).initial? a key' =
      if b = a ∧ key = key' then some ((j.initial? b key).getD v) else j.initial? a key' := by
  simp only [fetchedSlot, initial?, note, Ledger.initial?_record, SlotId.mk.injEq]

theorem Recorded.fetchedSlot (h : j.Recorded) (hx : j.accounts[a]? = some x) (key v : Word) :
    (j.fetchedSlot a key v).Recorded := by
  refine ⟨fun {b key'} hs => ?_, fun {b key' w} hw => ?_⟩
  · rw [initial?_fetchedSlot]
    rw [slot?_insert hx rfl] at hs
    split
    · rfl
    · rename_i hslot
      rw [if_neg hslot] at hs
      exact h.loaded hs
  · rw [initial?_fetchedSlot]
    split
    · rfl
    · obtain hw | hw := List.mem_cons.mp hw
      · cases hw
      · exact h.changed hw

theorem Records.fetchedSlot {b : Address} (hx : j.accounts[b]? = some x) (key : Word) :
    Records db j (j.fetchedSlot b key (unloaded db b x key)) := by
  refine ⟨fun {a key' v} hv => ?_, fun {a key' v} hv => ?_, fun h => h.fetchedSlot hx key _⟩
  · rw [initial?_fetchedSlot]
    split
    · rename_i hslot
      obtain ⟨rfl, rfl⟩ := hslot
      rw [hv, Option.getD_some]
    · exact hv
  · rw [initial?_fetchedSlot] at hv
    split at hv
    · rename_i hslot
      obtain ⟨rfl, rfl⟩ := hslot
      cases hj : j.initial? b key with
      | some v' =>
        rw [hj] at hv
        exact .inl hv
      | none =>
        rw [hj, Option.getD_none] at hv
        cases hv
        right
        rw [view_of_loaded hx, unloaded]
        cases hcreated : x.flags.created with
        | true => exact .inr ⟨rfl, hcreated⟩
        | false => exact .inl rfl
    · exact .inl hv

theorem Look.records (h : Look db j k) : Records db j k := by
  cases h with
  | ask lookup => exact .of_ledger rfl fun h => ⟨h.loaded, h.changed⟩
  | @account b absent =>
    refine .of_ledger rfl fun h => ⟨fun {a key} hs => h.loaded ?_, fun {a key v} hv => ?_⟩
    · rwa [slot?_load absent rfl] at hs
    · obtain hv | hv := List.mem_cons.mp hv
      · cases hv
      · exact h.changed hv
  | code loaded unfetched => exact .of_rests (.update j _ fun _ => rfl) rfl
  | @slot b x key loaded absent => exact .fetchedSlot loaded key

theorem Looks.records (h : Looks db j k) : Records db j k := by
  induction h with
  | refl => exact .of_ledger rfl id
  | tail hlooks hlook ih => exact ih.trans hlook.records (Looks.view hlooks)

theorem Recorded.written (h : j.Recorded) (hx : j.accounts[a]? = some x) {present : Word}
    (hs : x.slots[key]? = some present) (new : Word) : (j.written a key present new).Recorded := by
  have hrecorded : (j.initial? a key).isSome := by
    apply h.loaded
    rw [slot?_of_loaded hx, hs]
    rfl
  refine ⟨fun {b key'} hb => ?_, fun {b key' v} hv => ?_⟩
  · rw [slot?_insert hx rfl] at hb
    split at hb
    · rename_i hslot
      obtain ⟨rfl, rfl⟩ := hslot
      exact hrecorded
    · exact h.loaded hb
  · obtain hv | hv := List.mem_cons.mp hv
    · cases hv
      exact hrecorded
    · exact h.changed hv

theorem destroy_ledger (j : Journal) (a target : Address) (x : Account) :
    (j.destroy a target x).ledger = j.ledger := by
  by_cases hat : a = target
  · subst hat
    rw [destroy_self]
    rfl
  · rw [destroy_of_ne j hat]
    change ((j.emptied a).touch target).ledger = j.ledger
    rw [touch_eq]
    rfl

theorem Change.records (h : Change j k) : Records db j k := by
  cases h with
  | slot loaded slot new => exact .of_ledger rfl fun h => h.written loaded slot new
  | @destroy a x loaded target =>
    exact .of_rests (.destroy rfl (fun _ _ _ => rfl) j) (destroy_ledger j a target x)

theorem Alters.records {α : Type} {y : Loading α} (h : Alters db y j) :
    Records db j (leftBy y j) := by
  obtain ⟨i, hlooks, hi | hi⟩ := h.left
  · rw [hi]
    exact hlooks.records
  · exact hlooks.records.trans hi.records (Looks.view hlooks)

theorem recordRefund_ledger {amount : Int} (h : j.recordRefund amount = .ok k) :
    k.ledger = j.ledger := by
  rw [recordRefund_eq_ok h]

theorem opened_ledger (j : Journal) (a : Address) : (j.opened a).ledger = j.ledger := by
  rw [opened, touch_eq]
  rfl

end Journal

namespace Operation

open Journal

variable {db : Database} {op : Operation} {ops : List Operation} {s t : Nesting} {a : Address}
  {key v : Word}

theorem apply_records (h : op.apply db s = some t) : Records db s.journal t.journal := by
  cases op with
  | loadAccount a =>
    cases h
    exact (loadAccount_shows a _).looks.records
  | loadExistence a =>
    cases h
    exact (loadExistence_shows a _).looks.records
  | loadCode a =>
    cases h
    exact (loadCode_shows a _).looks.records
  | readSlot a key =>
    cases h
    exact (readSlot_shows a key _).looks.records
  | writeSlot a key new =>
    cases h
    exact (writeSlot_alters a key new _).records
  | selfDestruct a target =>
    cases h
    exact (selfDestruct_alters a target _).records
  | touch a =>
    cases h
    exact (Calm.touch _ a).records
  | raiseNonce a =>
    obtain ⟨n, k, hraise, rfl⟩ | rfl := apply_raiseNonce h
    · exact (Calm.raiseNonce hraise).records
    · exact (Calm.refl _).records
  | log l =>
    cases h
    exact (Calm.log _ l).records
  | recordRefund amount =>
    obtain ⟨k, hrefund, rfl⟩ := apply_recordRefund h
    exact .of_rests (.recordRefund hrefund) (recordRefund_ledger hrefund)
  | transfer source target value =>
    cases h
    exact (Calm.transfer source target value _).records
  | setCode a code =>
    cases h
    exact (Calm.setCode _ a code).records
  | createCheckpoint a =>
    obtain ⟨mark, k, hcreate, rfl⟩ | rfl := apply_createCheckpoint h
    · obtain ⟨-, rfl, -⟩ := createCheckpoint_eq_ok hcreate
      exact .of_rests (.opened rfl (fun _ _ _ => rfl) _) (opened_ledger _ a)
    · exact (Calm.refl _).records
  | checkpoint =>
    cases h
    exact (Calm.deeper _).records
  | commit =>
    obtain ⟨mark, marks, k, -, hcommit, rfl⟩ := apply_commit h
    exact (Calm.commit hcommit).records
  | revert =>
    obtain ⟨mark, marks, k, -, hrevert, rfl⟩ := apply_revert h
    obtain ⟨undone, -, -, -, -, hledger⟩ := revert_eq_ok hrevert
    exact .of_ledger hledger fun hrecorded => hrecorded.revert hrevert

theorem applyAll_append (db : Database) (s : Nesting) (before after : List Operation) :
    applyAll db s (before ++ after) =
      (applyAll db s before).bind fun t => applyAll db t after := by
  induction before generalizing s with
  | nil => rfl
  | cons op before ih =>
    simp only [List.cons_append, applyAll]
    cases op.apply db s with
    | none => rfl
    | some t => exact ih t

theorem applyAll_cons (h : applyAll db s (op :: ops) = some t) :
    ∃ u, op.apply db s = some u ∧ applyAll db u ops = some t := by
  simp only [applyAll] at h
  split at h
  · rename_i u hu
    exact ⟨u, hu, h⟩
  · cases h

def Passes (db : Database) (s : Nesting) (ops : List Operation) (t : Nesting) : Prop :=
  ∃ before after, ops = before ++ after ∧ applyAll db s before = some t

/-- An operation of the run has recorded zero for a slot of an account that was created then. -/
def RecordsZero (db : Database) (s : Nesting) (ops : List Operation) (a : Address) (key : Word) :
    Prop :=
  ∃ before op after t u, ops = before ++ op :: after ∧ applyAll db s before = some t ∧
    op.apply db t = some u ∧ (t.journal.view db a).created = true ∧
      t.journal.initial? a key = none ∧ u.journal.initial? a key = some 0

theorem RecordsZero.cons (hop : op.apply db s = some t) (h : RecordsZero db t ops a key) :
    RecordsZero db s (op :: ops) a key := by
  obtain ⟨before, next, after, u, w, rfl, hu, h⟩ := h
  refine ⟨op :: before, next, after, u, w, rfl, ?_, h⟩
  simp only [applyAll, hop, hu]

theorem applyAll_kept (h : applyAll db s ops = some t) (hv : s.journal.initial? a key = some v) :
    t.journal.initial? a key = some v := by
  induction ops generalizing s with
  | nil =>
    cases h
    exact hv
  | cons op ops ih =>
    obtain ⟨u, hu, h⟩ := applyAll_cons h
    exact ih h ((apply_records hu).kept hv)

theorem applyAll_recorded (h : applyAll db s ops = some t) (hs : s.journal.Recorded) :
    t.journal.Recorded := by
  induction ops generalizing s with
  | nil =>
    cases h
    exact hs
  | cons op ops ih =>
    obtain ⟨u, hu, h⟩ := applyAll_cons h
    exact ih h ((apply_records hu).recorded hs)

theorem applyAll_added (h : applyAll db s ops = some t) (hv : t.journal.initial? a key = some v) :
    s.journal.initial? a key = some v ∨ v = db.slot a key ∨
      v = 0 ∧ RecordsZero db s ops a key := by
  induction ops generalizing s with
  | nil =>
    cases h
    exact .inl hv
  | cons op ops ih =>
    obtain ⟨u, hu, h⟩ := applyAll_cons h
    obtain hv | hdb | ⟨hzero, hlater⟩ := ih h
    · obtain hv' | hdb | ⟨rfl, hcreated⟩ := (apply_records hu).added hv
      · exact .inl hv'
      · exact .inr (.inl hdb)
      · cases hs : s.journal.initial? a key with
        | some v' =>
          have hsame := (apply_records hu).kept hs
          rw [hv] at hsame
          exact .inl hsame.symm
        | none => exact .inr (.inr ⟨rfl, [], op, ops, s, u, rfl, rfl, hu, hcreated, hs, hv⟩)
    · exact .inr (.inl hdb)
    · exact .inr (.inr ⟨hzero, hlater.cons hu⟩)

structure Bookkeeping (db : Database) (s : Nesting) (ops : List Operation) (t : Nesting) :
    Prop where
  /-- Every loaded slot has an entry. -/
  loaded {a : Address} {x : Account} {key : Word} (hx : t.journal.accounts[a]? = some x)
    (hkey : (x.slots[key]?).isSome) : (t.journal.ledger.initial? ⟨a, key⟩).isSome
  /-- Every entry is still what it was at earlier points of the run. -/
  kept {u : Nesting} {slot : SlotId} {v : Word} (passed : Passes db s ops u)
    (recorded : u.journal.ledger.initial? slot = some v) : t.journal.ledger.initial? slot = some v
  /-- Every entry is the value of the database, or a zero of an account that was created. -/
  value {a : Address} {key v : Word} (recorded : t.journal.ledger.initial? ⟨a, key⟩ = some v) :
    v = db.slot a key ∨ v = 0 ∧ RecordsZero db s ops a key
  /-- A write reports the entry, which it may have just recorded. -/
  written {a : Address} {key new : Word} {found : Loaded SlotChange} {k : Journal}
    (wrote : Journal.writeSlot db a key new t.journal = .ok found k) :
    k.ledger.initial? ⟨a, key⟩ = some found.value.initial ∧
      ∀ v, t.journal.ledger.initial? ⟨a, key⟩ = some v → found.value.initial = v
  /-- It is the value before the transaction if the storage of all created accounts was empty then. -/
  original {a : Address} {key new : Word} {found : Loaded SlotChange} {k : Journal}
    (empty : ∀ u, Passes db s ops u → ∀ b, (u.journal.view db b).created = true →
      ∀ key, db.slot b key = 0)
    (wrote : Journal.writeSlot db a key new t.journal = .ok found k) :
    found.value.initial = db.slot a key

theorem ofHardfork_recorded (fork : Hardfork) : (ofHardfork fork).Recorded := by
  refine ⟨fun {a key} hs => ?_, nofun⟩
  rw [slot?, Facet.see_ofHardfork] at hs
  cases hs

theorem RecordsZero.passes (h : RecordsZero db s ops a key) :
    ∃ t, Passes db s ops t ∧ (t.journal.view db a).created = true := by
  obtain ⟨before, op, after, t, u, hsplit, ht, -, hcreated, -⟩ := h
  exact ⟨t, ⟨before, op :: after, hsplit, ht⟩, hcreated⟩

end Operation

namespace Journal

variable {db : Database} {j k : Journal} {a : Address} {key new : Word} {found : Loaded SlotChange}

/-- The slot of a write is recorded by the time it is written. -/
theorem Recorded.writes (hj : j.Recorded) (h : writeSlot db a key new j = .ok found k) :
    Records db j k ∧ k.initial? a key = some found.value.initial := by
  obtain ⟨i, x, hlooks, hx, hs, hinitial, -, hk⟩ := writeSlot_eq_ok h
  have hi : i.Recorded := hlooks.records.recorded hj
  have hsome : (i.initial? a key).isSome := by
    apply hi.loaded
    rw [slot?_of_loaded hx, hs]
    rfl
  have hvalue : i.initial? a key = some found.value.initial := by
    obtain ⟨v, hv⟩ := Option.isSome_iff_exists.mp hsome
    rw [hinitial, hv, Option.getD_some]
  rw [hk]
  split
  · exact ⟨hlooks.records, hvalue⟩
  · have hwritten : Records db i (i.written a key found.value.present new) :=
      .of_ledger rfl fun h => h.written hx hs new
    exact ⟨hlooks.records.trans hwritten (Looks.view hlooks), hvalue⟩

end Journal

/-- Whatever operations follow the start of a transaction, the ledger holds the values that slots had
when they were first loaded. -/
theorem Journal.ledger_holds_initial_values {db : Database} {fork : Hardfork}
    {ops : List Operation} {s : Nesting}
    (h : Operation.applyAll db ⟨ofHardfork fork, []⟩ ops = some s) :
    Operation.Bookkeeping db ⟨ofHardfork fork, []⟩ ops s := by
  have hrecorded := Operation.applyAll_recorded h (Operation.ofHardfork_recorded fork)
  have hvalue : ∀ {a key v}, s.journal.initial? a key = some v → v = db.slot a key ∨
      v = 0 ∧ Operation.RecordsZero db ⟨ofHardfork fork, []⟩ ops a key := by
    intro a key v hv
    obtain hstart | hv := Operation.applyAll_added h hv
    · cases (Ledger.initial?_empty ⟨a, key⟩).symm.trans hstart
    · exact hv
  refine ⟨fun {a x key} hx hkey => ?_, fun {u slot v} passed recorded => ?_, hvalue,
    fun {a key new found k} wrote => ?_, fun {a key new found k} empty wrote => ?_⟩
  · apply hrecorded.loaded
    rw [slot?_of_loaded hx]
    exact hkey
  · obtain ⟨before, after, rfl, hu⟩ := passed
    rw [Operation.applyAll_append, hu] at h
    exact Operation.applyAll_kept h recorded
  · obtain ⟨hrecords, hinitial⟩ := hrecorded.writes wrote
    refine ⟨hinitial, fun v hv => ?_⟩
    exact Option.some.inj (hinitial.symm.trans (hrecords.kept hv))
  · have hzero : ∀ {u}, Operation.Passes db ⟨ofHardfork fork, []⟩ ops u →
        (u.journal.view db a).created = true → (0 : Word) = db.slot a key :=
      fun hu hcreated => (empty _ hu a hcreated key).symm
    obtain ⟨hrecords, hinitial⟩ := hrecorded.writes wrote
    obtain hold | hdb | ⟨hnew, hcreated⟩ := hrecords.added hinitial
    · obtain hdb | ⟨hv, hzeroed⟩ := hvalue hold
      · exact hdb
      · obtain ⟨u, hu, hcreated⟩ := hzeroed.passes
        exact hv.trans (hzero hu hcreated)
    · exact hdb
    · exact hnew.trans (hzero ⟨ops, [], (List.append_nil ops).symm, h⟩ hcreated)

def Database.vault : Database :=
  { Database.empty with
    account := fun a => if a = 1 then some { balance := 10 } else none
    slot := fun a key => if a = 1 ∧ key = 0 then 7 else 0 }

/-- A write in a frame that fails, which unloads the slot again, and one in a frame that is kept. -/
def Operation.rewrites : List Operation :=
  [.checkpoint, .writeSlot 1 0 5, .revert, .checkpoint, .writeSlot 1 0 9, .commit]

theorem Journal.ledger_holds_initial_values_rewrites :
    ∃ s found k, Operation.applyAll .vault ⟨ofHardfork .london, []⟩ Operation.rewrites = some s ∧
      Operation.Bookkeeping .vault ⟨ofHardfork .london, []⟩ Operation.rewrites s ∧
      writeSlot .vault 1 0 8 s.journal = .ok found k ∧ found.value = ⟨7, 9, 8⟩ := by
  obtain ⟨s, found, k, hs, hrecorded, hwrite, hpresent⟩ : ∃ s found k,
      Operation.applyAll .vault ⟨ofHardfork .london, []⟩ Operation.rewrites = some s ∧
        s.journal.ledger.initial? ⟨1, 0⟩ = some 7 ∧
        writeSlot .vault 1 0 8 s.journal = .ok found k ∧
        found.value.present = 9 ∧ found.value.new = 8 :=
    ⟨_, _, _, rfl, rfl, rfl, rfl, rfl⟩
  have hbooks := ledger_holds_initial_values hs
  have hinitial := (hbooks.written hwrite).2 7 hrecorded
  refine ⟨s, found, k, hs, hbooks, hwrite, ?_⟩
  rw [← hinitial, ← hpresent.1, ← hpresent.2]

end MeteredVM
