import MeteredVM.Proofs.Journal.Ledger
import MeteredVM.Proofs.Journal.Lockstep
import MeteredVM.Proofs.Journal.Standing

namespace MeteredVM

open Accounts Relation

namespace Journal

/-- An entry that may come after the creation of `a` at `o`, while no one writes the slot: the account is
not loaded, the slot at most loaded, and since Spurious Dragon the account is not created once more. -/
def Follows (o : Journal) (a : Address) (key : Word) : JournalEntry → Prop
  | .loaded b => b ≠ a
  | .slotChanged b key' before => b = a → key' = key → before = none ∧ o.slot? a key = none
  | .created b => o.clearsEmpty = true → b ≠ a
  | _ => True

/-- The account was created at `o`, and no one has written the slot since: the slot is as it was there, or
was loaded as zero. The nonce stays above the number of times that undoing lowers it. -/
structure Unwritten (o : Journal) (a : Address) (key : Word) (newer : List JournalEntry)
    (x : Account) : Prop where
  created : x.flags.created = true
  slot : x.slots[key]? = o.slot? a key ∨ o.slot? a key = none ∧ x.slots[key]? = some 0
  nonce (numbered : o.clearsEmpty = true) : newer.count (.nonceRaised a) < x.info.nonce

/-- The account was created at `o`, and the entries since are as they may be. -/
structure Intact (o : Journal) (a : Address) (key : Word) (m : Accounts)
    (newer : List JournalEntry) : Prop where
  loaded : ∃ x, m[a]? = some x ∧ Unwritten o a key newer x
  follows : ∀ e ∈ newer, Follows o a key e

def Newborn (o : Journal) (a : Address) (key : Word) (k : Journal) : Prop :=
  ∃ newer, k.entries = newer ++ .created a :: o.entries ∧ Intact o a key k.accounts newer

variable {o j k l : Journal} {a b : Address} {key : Word} {m n : Accounts} {e : JournalEntry}
  {newer undone : List JournalEntry} {x : Account}

theorem Unwritten.restore_created (h : Unwritten o a key (e :: newer) x) (hc : e ≠ .created a) :
    (e.restore a x).flags.created = true := by
  change Facet.created.of (e.restore a x) = true
  rw [Facet.created.of_restore]
  cases e with
  | created b =>
    have hba : b ≠ a := fun hba => hc (hba ▸ rfl)
    simpa [Facet.created, hba] using h.created
  | _ => exact h.created

theorem Unwritten.restore_slot (h : Unwritten o a key (e :: newer) x) (he : Follows o a key e) :
    (e.restore a x).slots[key]? = o.slot? a key ∨
      o.slot? a key = none ∧ (e.restore a x).slots[key]? = some 0 := by
  have hs := h.slot
  have hslots : (e.restore a x).slots = Facet.slots.back e a x.slots := Facet.slots.of_restore e a x
  rw [hslots]
  cases e with
  | slotChanged b key' before =>
    simp only [Facet.slots]
    split
    · rename_i hba
      by_cases hkey : key' = key
      · obtain ⟨rfl, hnone⟩ := he hba hkey
        simp [hkey, hnone]
      · cases before with
        | none => simpa [Std.ExtTreeMap.getElem?_erase, hkey] using hs
        | some v => simpa [Std.ExtTreeMap.getElem?_insert, hkey] using hs
    · exact hs
  | _ => exact hs

theorem Unwritten.restore_nonce (h : Unwritten o a key (e :: newer) x) (hc : e ≠ .created a)
    (numbered : o.clearsEmpty = true) :
    newer.count (.nonceRaised a) < (e.restore a x).info.nonce := by
  have hn := h.nonce numbered
  have hstanding := congrArg Prod.fst (e.restore_standing a x)
  simp only [Account.standing] at hstanding
  rw [hstanding]
  rw [List.count_cons] at hn
  cases e with
  | nonceRaised b =>
    simp only [JournalEntry.backStanding]
    by_cases hba : b = a
    · simp [hba] at hn ⊢
      omega
    · simpa [hba] using hn
  | created b =>
    have hba : b ≠ a := fun hba => hc (hba ▸ rfl)
    simpa [JournalEntry.backStanding, hba] using hn
  | codeSet b =>
    simp only [JournalEntry.backStanding]
    split <;> simpa using hn
  | _ => simpa [JournalEntry.backStanding] using hn

theorem Unwritten.restore (h : Unwritten o a key (e :: newer) x) (he : Follows o a key e)
    (hc : e ≠ .created a) : Unwritten o a key newer (e.restore a x) :=
  ⟨h.restore_created hc, h.restore_slot he, h.restore_nonce hc⟩

theorem Intact.undo (h : Intact o a key m (e :: newer)) (hu : undo m e = .ok n)
    (hc : e ≠ .created a) : Intact o a key n newer := by
  obtain ⟨x, hx, hslot⟩ := h.loaded
  have he := h.follows e List.mem_cons_self
  refine ⟨⟨e.restore a x, ?_, hslot.restore he hc⟩, fun e' he' =>
    h.follows e' (List.mem_cons_of_mem e he')⟩
  have hloaded : e ≠ .loaded a := by
    rintro rfl
    exact he rfl
  rw [undo_getElem? hu, if_neg hloaded, hx, Option.map_some]

theorem Intact.undoAll (h : Intact o a key m (undone ++ newer)) (hu : undoAll m undone = .ok n)
    (hc : .created a ∉ undone) : Intact o a key n newer := by
  induction undone generalizing m with
  | nil =>
    cases hu
    exact h
  | cons e undone ih =>
    obtain ⟨m', hm, hu⟩ := Except.bind_eq_ok hu
    rw [List.mem_cons, not_or] at hc
    exact ih (h.undo hm (Ne.symm hc.1)) hu hc.2

theorem Unwritten.congr {y : Account} (h : Unwritten o a key newer x)
    (created : y.flags.created = x.flags.created) (slots : y.slots = x.slots)
    (nonce : y.info.nonce = x.info.nonce) : Unwritten o a key newer y := by
  refine ⟨created.trans h.created, ?_, fun numbered => ?_⟩
  · rw [slots]
    exact h.slot
  · rw [nonce]
    exact h.nonce numbered

namespace Newborn

theorem of_eq (h : Newborn o a key j) (entries : k.entries = j.entries)
    (accounts : k.accounts = j.accounts) : Newborn o a key k := by
  rw [Newborn, entries, accounts]
  exact h

theorem update (h : Newborn o a key j) (b : Address) {f : Account → Account}
    (hf : b = a → ∀ newer x, Unwritten o a key newer x → Unwritten o a key newer (f x)) :
    Newborn o a key (j.update b f) := by
  obtain ⟨newer, he, ⟨x, hx, hslot⟩, hfollows⟩ := h
  refine ⟨newer, he, ⟨if b = a then f x else x, ?_, ?_⟩, hfollows⟩
  · rw [Journal.update, getElem?_modify_eq_map, hx, Option.map_some]
  · split
    · rename_i hba
      exact hf hba newer x hslot
    · exact hslot

theorem alter (h : Newborn o a key j) (b : Address) {f : Account → Account}
    (created : ∀ x, (f x).flags.created = x.flags.created) (slots : ∀ x, (f x).slots = x.slots)
    (nonce : ∀ x, (f x).info.nonce = x.info.nonce) : Newborn o a key (j.update b f) :=
  h.update b fun _ _ x hx => hx.congr (created x) (slots x) (nonce x)

theorem note (h : Newborn o a key j) (he : Follows o a key e) (hnonce : e ≠ .nonceRaised a) :
    Newborn o a key (j.note e) := by
  obtain ⟨newer, hentries, ⟨x, hx, hslot⟩, hfollows⟩ := h
  refine ⟨e :: newer, by rw [Journal.note, hentries, List.cons_append], ⟨x, hx, hslot.created,
    hslot.slot, fun numbered => ?_⟩, ?_⟩
  · rw [List.count_cons_of_ne hnonce]
    exact hslot.nonce numbered
  · intro e' he'
    obtain rfl | he' := List.mem_cons.mp he'
    · exact he
    · exact hfollows e' he'

theorem touch (h : Newborn o a key j) (b : Address) : Newborn o a key (j.touch b) := by
  unfold Journal.touch
  split
  · split
    · exact h
    · exact (h.note (e := .touched b) trivial nofun).alter b (fun _ => rfl) (fun _ => rfl) fun _ => rfl
  · exact h

theorem setBalance (h : Newborn o a key j) (b : Address) (w : Word) :
    Newborn o a key (j.setBalance b w) :=
  h.alter b (fun _ => rfl) (fun _ => rfl) fun _ => rfl

theorem setCode (h : Newborn o a key j) (b : Address) (code : Bytes) :
    Newborn o a key (j.setCode b code) := by
  unfold Journal.setCode
  split
  · have hnoted := (h.touch b).note (e := .codeSet b) trivial nofun
    exact hnoted.alter b (fun _ => rfl) (fun _ => rfl) fun _ => rfl
  · exact h

/-- The entry that undoing would lower the nonce by comes with a higher nonce. -/
theorem raised (h : Newborn o a key j) (b : Address) : Newborn o a key (j.raised b) := by
  obtain ⟨newer, hentries, ⟨x, hx, hslot⟩, hfollows⟩ := h.touch b
  by_cases hba : b = a
  · subst hba
    refine ⟨.nonceRaised b :: newer, ?_,
      ⟨{ x with info := { x.info with nonce := x.info.nonce + 1 } }, ?_, ?_⟩, ?_⟩
    · rw [Journal.raised, Journal.update, Journal.note, hentries, List.cons_append]
    · rw [Journal.raised, Journal.update, getElem?_modify, if_pos rfl]
      exact congrArg (Option.map _) hx
    · refine ⟨hslot.created, hslot.slot, fun numbered => ?_⟩
      rw [List.count_cons_self]
      exact Nat.succ_lt_succ (hslot.nonce numbered)
    · intro e he
      obtain rfl | he := List.mem_cons.mp he
      · trivial
      · exact hfollows e he
  · have hnonce : JournalEntry.nonceRaised b ≠ .nonceRaised a := by
      rintro ⟨⟩
      exact hba rfl
    exact ((h.touch b).note (e := .nonceRaised b) trivial hnonce).update b fun h => absurd h hba

theorem look {db : Database} (h : Newborn o a key j) (looked : Look db j k) :
    Newborn o a key k := by
  cases looked with
  | ask l => exact h.of_eq rfl rfl
  | @account b absent =>
    obtain ⟨newer, hentries, ⟨x, hx, hslot⟩, hfollows⟩ := h
    have hba : b ≠ a := by
      rintro rfl
      rw [hx] at absent
      cases absent
    refine Newborn.note ⟨newer, hentries, ⟨x, ?_, hslot⟩, hfollows⟩ hba JournalEntry.noConfusion
    simp [Std.ExtTreeMap.getElem?_insert, hba, hx]
  | code loaded unfetched => exact h.alter _ (fun _ => rfl) (fun _ => rfl) fun _ => rfl
  | @slot b x key' loaded absent =>
    obtain ⟨newer, hentries, ⟨y, hy, hslot⟩, hfollows⟩ := h
    -- If it is the slot itself, it was not loaded at the creation, and it reads as zero.
    have hfirst : b = a → key' = key → o.slot? a key = none ∧ unloaded db b x key' = 0 := by
      rintro rfl rfl
      cases loaded.symm.trans hy
      refine ⟨?_, ?_⟩
      · obtain hsame | ⟨hnone, -⟩ := hslot.slot
        · exact hsame.symm.trans absent
        · exact hnone
      · rw [unloaded, if_pos hslot.created]
    have hloaded : Newborn o a key (j.update b fun y =>
        { y with slots := y.slots.insert key' (unloaded db b x key') }) := by
      refine Newborn.update ⟨newer, hentries, ⟨y, hy, hslot⟩, hfollows⟩ b fun hba newer z hz =>
        ⟨hz.created, ?_, hz.nonce⟩
      by_cases hkey : key' = key
      · obtain ⟨hnone, hzero⟩ := hfirst hba hkey
        simp [hkey, hnone] at hzero ⊢
        exact hzero
      · simpa [Std.ExtTreeMap.getElem?_insert, hkey] using hz.slot
    exact Newborn.note (hloaded.of_eq rfl rfl) (fun hba hkey => ⟨rfl, (hfirst hba hkey).1⟩)
      JournalEntry.noConfusion

theorem looks {db : Database} (h : Newborn o a key j) (looked : Looks db j k) :
    Newborn o a key k := by
  induction looked with
  | refl => exact h
  | tail _ hlook ih => exact ih.look hlook

theorem written (h : Newborn o a key j) {key' : Word} (hother : ¬(b = a ∧ key' = key))
    (present new : Word) : Newborn o a key (j.written b key' present new) := by
  have hslots : Newborn o a key (j.update b fun y => { y with slots := y.slots.insert key' new }) := by
    refine h.update b fun hba newer x hx => ⟨hx.created, ?_, hx.nonce⟩
    have hkey : key' ≠ key := fun hkey => hother ⟨hba, hkey⟩
    simpa [Std.ExtTreeMap.getElem?_insert, hkey] using hx.slot
  exact hslots.note (fun hba hkey => absurd ⟨hba, hkey⟩ hother) nofun

theorem destroy (h : Newborn o a key j) (b target : Address) (x : Account) :
    Newborn o a key (j.destroy b target x) := by
  have hemptied : Newborn o a key (j.emptied b) :=
    h.alter b (fun _ => rfl) (fun _ => rfl) fun _ => rfl
  by_cases hbt : b = target
  · subst hbt
    rw [destroy_self]
    exact hemptied.note trivial nofun
  · rw [destroy_of_ne j hbt]
    have hpaid : Newborn o a key (((j.emptied b).touch target).rebalance target
        (· + x.info.balance)) :=
      (hemptied.touch target).alter target (fun _ => rfl) (fun _ => rfl) fun _ => rfl
    exact hpaid.note trivial nofun

/-- Another account is created, or before Spurious Dragon the same one. -/
theorem opened (h : Newborn o a key j) (hb : o.clearsEmpty = true → b ≠ a) :
    Newborn o a key (j.opened b) := by
  have hnoted : Newborn o a key (j.deeper.note (.created b)) :=
    (h.of_eq (k := j.deeper) rfl rfl).note hb nofun
  refine (hnoted.update b fun hba newer x hx => ?_).touch b
  exact ⟨rfl, hx.slot, fun numbered => absurd hba (hb numbered)⟩

/-- Since Spurious Dragon the account can not be created once more. -/
theorem created (h : Newborn o a key j) {mark : Checkpoint}
    (opens : j.createCheckpoint b = .ok (mark, k)) : Newborn o a key k := by
  obtain ⟨-, rfl, y, hy, -, hnonce⟩ := createCheckpoint_eq_ok opens
  refine h.opened fun numbered => ?_
  rintro rfl
  obtain ⟨newer, -, ⟨x, hx, hslot⟩, -⟩ := h
  cases hx.symm.trans hy
  have hpositive := hslot.nonce numbered
  omega

theorem transfer (h : Newborn o a key j) (source target : Address) (value : Word) :
    Newborn o a key (leftBy (Journal.transfer source target value) j) :=
  transfer_rule (R := fun j k => Newborn o a key j → Newborn o a key k) (fun _ => id)
    (fun hij hjk h => hjk (hij h)) (fun _ b h => h.touch b) (fun _ b w h => h.setBalance b w)
    (fun _ h => h.note trivial nofun) j h

/-- The journal goes back to a checkpoint that was taken later, and undoes no creation of the account. -/
theorem revert (h : Newborn o a key k) {mark : Checkpoint} (reverted : k.revert mark = .ok l)
    (later : o.entries.length < mark.entries)
    (hc : o.clearsEmpty = true ∨
      .created a ∉ k.entries.take (k.entries.length - mark.entries)) : Newborn o a key l := by
  obtain ⟨newer, hentries, hintact⟩ := h
  obtain ⟨undone, hsplit, hlength, hundo, -⟩ := revert_eq_ok reverted
  have hbirth : (.created a :: o.entries) <:+ l.entries := by
    apply List.suffix_of_suffix_length_le ⟨newer, hentries.symm⟩ ⟨undone, hsplit.symm⟩
    rw [List.length_cons, hlength]
    exact later
  obtain ⟨kept, hkept⟩ := hbirth
  obtain rfl : newer = undone ++ kept := by
    rw [hsplit, ← hkept, ← List.append_assoc] at hentries
    exact (List.append_cancel_right hentries).symm
  refine ⟨kept, hkept.symm, hintact.undoAll hundo ?_⟩
  have htake : k.entries.take (k.entries.length - mark.entries) = undone := by
    rw [← hlength, hsplit, List.length_append, Nat.add_sub_cancel, List.take_left]
  rw [htake] at hc
  exact hc.elim (fun numbered hmem => hintact.follows _ (List.mem_append_left _ hmem) numbered rfl) id

theorem birth {mark : Checkpoint} (opens : o.createCheckpoint a = .ok (mark, k)) :
    Newborn o a key k := by
  obtain ⟨-, rfl, x, hx, -, -⟩ := createCheckpoint_eq_ok opens
  have hloaded : (o.deeper.note (.created a)).accounts[a]? = some x := hx
  refine Newborn.touch ⟨[], rfl, ?_, nofun⟩ a
  rw [Journal.update, getElem?_modify, if_pos rfl, hloaded, Option.map_some]
  refine ⟨_, rfl, rfl, .inl (slot?_of_loaded hx key).symm, fun numbered => ?_⟩
  simp [numbered]

theorem reads (h : Newborn o a key k) (db : Database) :
    ∃ found l, readSlot db a key k = .ok found l ∧ found.value = (o.slot? a key).getD 0 := by
  obtain ⟨newer, -, ⟨x, hx, hslot⟩, -⟩ := h
  simp only [readSlot, bind, EStateM.bind, loadAccount_of_loaded db hx]
  obtain hsame | ⟨hnone, hzero⟩ := hslot.slot
  · rw [← hsame]
    cases hx' : x.slots[key]? with
    | some v => exact ⟨_, _, rfl, rfl⟩
    | none =>
      simp only [hslot.created]
      exact ⟨_, _, rfl, rfl⟩
  · rw [hzero, hnone]
    exact ⟨_, _, rfl, rfl⟩

end Newborn

end Journal

namespace Operation

open Journal

variable {db : Database} {o : Journal} {a : Address} {key : Word} {s t : Nesting}
  {op : Operation} {ops : List Operation}

/-- The operation does not write the slot, and does not undo the creation of `a` at `o`: it goes back to
checkpoints taken later only. Before Spurious Dragon, an account without code can be created several
times, and then none of its creations is undone. -/
def Spares (o : Journal) (a : Address) (key : Word) (s : Nesting) : Operation → Prop
  | writeSlot b key' _ => ¬(b = a ∧ key' = key)
  | revert => ∀ mark ∈ s.marks.head?, o.entries.length < mark.entries ∧
      (o.clearsEmpty = true ∨
        .created a ∉ s.journal.entries.take (s.journal.entries.length - mark.entries))
  | _ => True

instance (o : Journal) (a : Address) (key : Word) (s : Nesting) (op : Operation) :
    Decidable (op.Spares o a key s) :=
  match op with
  | writeSlot b key' _ => inferInstanceAs (Decidable ¬(b = a ∧ key' = key))
  | revert => inferInstanceAs (Decidable (∀ mark ∈ s.marks.head?, o.entries.length < mark.entries ∧
      (o.clearsEmpty = true ∨
        .created a ∉ s.journal.entries.take (s.journal.entries.length - mark.entries))))
  | loadAccount _ | loadExistence _ | loadCode _ | readSlot _ _ | selfDestruct _ _ | touch _ | raiseNonce _
  | log _ | recordRefund _ | transfer _ _ _ | setCode _ _ | createCheckpoint _ | checkpoint | commit =>
    .isTrue trivial

def AllSpare (db : Database) (o : Journal) (a : Address) (key : Word) (s : Nesting) :
    List Operation → Prop
  | [] => True
  | op :: ops => op.Spares o a key s ∧ ∀ t ∈ op.apply db s, AllSpare db o a key t ops

instance AllSpare.instDecidable (db : Database) (o : Journal) (a : Address) (key : Word)
    (s : Nesting) (ops : List Operation) : Decidable (AllSpare db o a key s ops) :=
  match ops with
  | [] => .isTrue trivial
  | op :: ops =>
    have (t : Nesting) : Decidable (AllSpare db o a key t ops) := instDecidable db o a key t ops
    inferInstanceAs
      (Decidable (op.Spares o a key s ∧ ∀ t ∈ op.apply db s, AllSpare db o a key t ops))

theorem apply_newborn (h : Newborn o a key s.journal) (spares : op.Spares o a key s)
    (applied : op.apply db s = some t) : Newborn o a key t.journal := by
  cases op with
  | loadAccount b =>
    cases applied
    exact h.looks (loadAccount_shows b _).looks
  | loadExistence b =>
    cases applied
    exact h.looks (loadExistence_shows b _).looks
  | loadCode b =>
    cases applied
    exact h.looks (loadCode_shows b _).looks
  | readSlot b key' =>
    cases applied
    exact h.looks (readSlot_shows b key' _).looks
  | writeSlot b key' new =>
    cases applied
    obtain ⟨i, hlooks, hi | ⟨x, present, -, -, hi⟩⟩ := writeSlot_left db b key' new s.journal
    · rw [hi]
      exact h.looks hlooks
    · rw [hi]
      exact (h.looks hlooks).written spares present new
  | selfDestruct b target =>
    cases applied
    obtain ⟨i, hlooks, hi | ⟨x, -, -, hi⟩⟩ := selfDestruct_left db b target s.journal
    · rw [hi]
      exact h.looks hlooks
    · rw [hi]
      exact (h.looks hlooks).destroy b target x
  | touch b =>
    cases applied
    exact h.touch b
  | raiseNonce b =>
    obtain ⟨n, k, hraise, rfl⟩ | rfl := apply_raiseNonce applied
    · obtain ⟨rfl, -⟩ := raiseNonce_eq_some hraise
      exact h.raised b
    · exact h
  | log l =>
    cases applied
    exact h.of_eq rfl rfl
  | recordRefund amount =>
    obtain ⟨k, hrefund, rfl⟩ := apply_recordRefund applied
    rw [recordRefund_eq_ok hrefund]
    exact h.of_eq rfl rfl
  | transfer source target value =>
    cases applied
    exact h.transfer source target value
  | setCode b code =>
    cases applied
    exact h.setCode b code
  | createCheckpoint b =>
    obtain ⟨mark, k, hcreate, rfl⟩ | rfl := apply_createCheckpoint applied
    · exact h.created hcreate
    · exact h
  | checkpoint =>
    cases applied
    exact h.of_eq rfl rfl
  | commit =>
    obtain ⟨mark, marks, k, -, hcommit, rfl⟩ := apply_commit applied
    rw [commit_eq_ok hcommit]
    exact h.of_eq rfl rfl
  | revert =>
    obtain ⟨mark, marks, k, hmarks, hrevert, rfl⟩ := apply_revert applied
    obtain ⟨hlater, hc⟩ := spares mark (by rw [hmarks]; rfl)
    exact h.revert hrevert hlater hc

theorem applyAll_newborn (h : Newborn o a key s.journal) (spares : AllSpare db o a key s ops)
    (applied : applyAll db s ops = some t) : Newborn o a key t.journal := by
  induction ops generalizing s with
  | nil =>
    cases applied
    exact h
  | cons op ops ih =>
    obtain ⟨u, hu, applied⟩ := applyAll_cons applied
    exact ih (apply_newborn h spares.1 hu) (spares.2 u hu) applied

end Operation

/-- After an account is created at `j`, through any operations that neither write the slot nor undo the
creation, a read of the slot succeeds and gives what the slot had at the creation: zero if it was not
loaded then, whatever the database has. -/
theorem Journal.created_slot_reads {db : Database} {j k : Journal} {a : Address} {key : Word}
    {mark : Checkpoint} {marks : List Checkpoint} {ops : List Operation} {t : Nesting}
    (created : j.createCheckpoint a = .ok (mark, k))
    (spares : Operation.AllSpare db j a key ⟨k, mark :: marks⟩ ops)
    (ran : Operation.applyAll db ⟨k, mark :: marks⟩ ops = some t) :
    ∃ found l, readSlot db a key t.journal = .ok found l ∧
      found.value = (j.slot? a key).getD 0 :=
  (Operation.applyAll_newborn (Newborn.birth created) spares ran).reads db

/-- An inner frame fails that has read the slot and written another, and the account can not be created
again. -/
def Operation.infancy : List Operation :=
  [.checkpoint, .readSlot 1 0, .writeSlot 1 1 5, .revert, .createCheckpoint 1, .commit, .readSlot 1 0]

/-- The database has seven in the slot. -/
theorem Journal.created_slot_reads_zero :
    ∃ j mark k t found l, Operation.applyAll .vault ⟨ofHardfork .london, []⟩ [.loadAccount 1] =
        some ⟨j, []⟩ ∧ j.createCheckpoint 1 = .ok (mark, k) ∧
      Operation.applyAll .vault ⟨k, [mark]⟩ Operation.infancy = some t ∧
      readSlot .vault 1 0 t.journal = .ok found l ∧ found.value = 0 := by
  obtain ⟨j, mark, k, t, hj, hslot, hcreate, hrun, hspares⟩ : ∃ j mark k t,
      Operation.applyAll .vault ⟨ofHardfork .london, []⟩ [.loadAccount 1] = some ⟨j, []⟩ ∧
        j.slot? 1 0 = none ∧ j.createCheckpoint 1 = .ok (mark, k) ∧
        Operation.applyAll .vault ⟨k, [mark]⟩ Operation.infancy = some t ∧
        Operation.AllSpare .vault j 1 0 ⟨k, [mark]⟩ Operation.infancy :=
    ⟨_, _, _, _, rfl, rfl, rfl, rfl, by decide⟩
  obtain ⟨found, l, hread, hvalue⟩ := created_slot_reads hcreate hspares hrun
  rw [hslot] at hvalue
  exact ⟨j, mark, k, t, found, l, hj, hcreate, hrun, hread, hvalue⟩

/-- A slot that was read before is not empty in the created account. -/
theorem Journal.created_slot_kept :
    ∃ j mark k found l, Operation.applyAll .vault ⟨ofHardfork .london, []⟩ [.readSlot 1 0] =
        some ⟨j, []⟩ ∧ j.createCheckpoint 1 = .ok (mark, k) ∧
      readSlot .vault 1 0 k = .ok found l ∧ found.value = 7 :=
  ⟨_, _, _, _, _, rfl, rfl, rfl, rfl⟩

end MeteredVM
