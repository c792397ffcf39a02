import MeteredVM.Proofs.Journal.Change

namespace MeteredVM

inductive Operation where
  | loadAccount (a : Address)
  | loadExistence (a : Address)
  | loadCode (a : Address)
  | readSlot (a : Address) (key : Word)
  | writeSlot (a : Address) (key new : Word)
  | selfDestruct (a target : Address)
  | touch (a : Address)
  | raiseNonce (a : Address)
  | log (l : Log)
  | recordRefund (amount : Int)
  | transfer (source target : Address) (value : Word)
  | setCode (a : Address) (code : Bytes)
  | createCheckpoint (a : Address)
  | checkpoint
  | commit
  | revert

/-- A journal and the checkpoints of its open frames, the innermost first. -/
structure Nesting where
  journal : Journal
  marks : List Checkpoint

namespace Operation

open Journal

/-- Carries an operation out. A failing database or a refusal is an ordinary end of it; there is no
result if the refund counter leaves its range or no frame is open that could be closed. -/
def apply (db : Database) (s : Nesting) : Operation → Option Nesting
  | loadAccount a => some { s with journal := leftBy (Journal.loadAccount db a) s.journal }
  | loadExistence a => some { s with journal := leftBy (Journal.loadExistence db a) s.journal }
  | loadCode a => some { s with journal := leftBy (Journal.loadCode db a) s.journal }
  | readSlot a key => some { s with journal := leftBy (Journal.readSlot db a key) s.journal }
  | writeSlot a key new => some { s with journal := leftBy (Journal.writeSlot db a key new) s.journal }
  | selfDestruct a target =>
    some { s with journal := leftBy (Journal.selfDestruct db a target) s.journal }
  | touch a => some { s with journal := s.journal.touch a }
  | raiseNonce a =>
    match s.journal.raiseNonce a with
    | some (_, k) => some { s with journal := k }
    | none => some s
  | log l => some { s with journal := s.journal.log l }
  | recordRefund amount =>
    match s.journal.recordRefund amount with
    | .ok k => some { s with journal := k }
    | .error _ => none
  | transfer source target value =>
    some { s with journal := leftBy (Journal.transfer source target value) s.journal }
  | setCode a code => some { s with journal := s.journal.setCode a code }
  | createCheckpoint a =>
    match s.journal.createCheckpoint a with
    | .ok (mark, k) => some ⟨k, mark :: s.marks⟩
    | .error _ => some s
  | checkpoint => some ⟨s.journal.checkpoint.2, s.journal.checkpoint.1 :: s.marks⟩
  | commit =>
    match s.marks, s.journal.commit with
    | _ :: marks, .ok k => some ⟨k, marks⟩
    | _, _ => none
  | revert =>
    match s.marks with
    | mark :: marks =>
      match s.journal.revert mark with
      | .ok k => some ⟨k, marks⟩
      | .error _ => none
    | [] => none

section Results

variable {db : Database} {s t : Nesting} {a : Address}

theorem apply_raiseNonce (h : (raiseNonce a).apply db s = some t) :
    (∃ n k, s.journal.raiseNonce a = some (n, k) ∧ t = { s with journal := k }) ∨ t = s := by
  simp only [apply] at h
  split at h
  · rename_i n k hraise
    cases h
    exact .inl ⟨n, k, hraise, rfl⟩
  · cases h
    exact .inr rfl

theorem apply_recordRefund {amount : Int} (h : (recordRefund amount).apply db s = some t) :
    ∃ k, s.journal.recordRefund amount = .ok k ∧ t = { s with journal := k } := by
  simp only [apply] at h
  split at h
  · rename_i k hrefund
    cases h
    exact ⟨k, hrefund, rfl⟩
  · cases h

theorem apply_createCheckpoint (h : (createCheckpoint a).apply db s = some t) :
    (∃ mark k, s.journal.createCheckpoint a = .ok (mark, k) ∧ t = ⟨k, mark :: s.marks⟩) ∨
      t = s := by
  simp only [apply] at h
  split at h
  · rename_i mark k hcreate
    cases h
    exact .inl ⟨mark, k, hcreate, rfl⟩
  · cases h
    exact .inr rfl

theorem apply_commit (h : commit.apply db s = some t) :
    ∃ mark marks k, s.marks = mark :: marks ∧ s.journal.commit = .ok k ∧ t = ⟨k, marks⟩ := by
  simp only [apply] at h
  split at h
  · rename_i mark marks k hmarks hcommit
    cases h
    exact ⟨mark, marks, k, hmarks, hcommit, rfl⟩
  · cases h

theorem apply_revert (h : revert.apply db s = some t) :
    ∃ mark marks k, s.marks = mark :: marks ∧ s.journal.revert mark = .ok k ∧ t = ⟨k, marks⟩ := by
  simp only [apply] at h
  split at h
  · rename_i mark marks hmarks
    split at h
    · rename_i k hrevert
      cases h
      exact ⟨mark, marks, k, hmarks, hrevert, rfl⟩
    · cases h
  · cases h

end Results

/-- Only an open frame is closed, code is deployed only where there is none, an account is created
only if it is not created yet, and no transfer fails halfway. -/
def Permitted (s : Nesting) : Operation → Prop
  | setCode a _ => ∀ x ∈ s.journal.accounts[a]?, x.info.codeHash = emptyCodeHash
  | createCheckpoint a => ∀ x ∈ s.journal.accounts[a]?, x.flags.created = false
  | transfer source target value =>
    errorOf? (Journal.transfer source target value) s.journal ≠ some .balanceOverflow ∧
      errorOf? (Journal.transfer source target value) s.journal ≠ some .hostFailure
  | commit | revert => s.marks ≠ []
  | _ => True

instance (s : Nesting) (op : Operation) : Decidable (op.Permitted s) := by
  cases op <;> unfold Permitted <;> infer_instance

def Overflows (j : Journal) (op : Operation) : Prop :=
  ∃ amount, op = recordRefund amount ∧ j.recordRefund amount = .error .overflow

def applyAll (db : Database) (s : Nesting) : List Operation → Option Nesting
  | [] => some s
  | op :: ops =>
    match op.apply db s with
    | some t => applyAll db t ops
    | none => none

def AllPermitted (db : Database) (s : Nesting) : List Operation → Prop
  | [] => True
  | op :: ops => op.Permitted s ∧ ∀ t ∈ op.apply db s, AllPermitted db t ops

instance AllPermitted.instDecidable (db : Database) (s : Nesting) (ops : List Operation) :
    Decidable (AllPermitted db s ops) :=
  match ops with
  | [] => .isTrue trivial
  | op :: ops =>
    have (t : Nesting) : Decidable (AllPermitted db t ops) := instDecidable db t ops
    inferInstanceAs (Decidable (op.Permitted s ∧ ∀ t ∈ op.apply db s, AllPermitted db t ops))

end Operation

namespace Journal

open Operation

/-- A frame is opened, for a call or for the creation of an account that is not created yet. -/
inductive Opens (j : Journal) : Checkpoint → Journal → Prop
  | call : Opens j j.checkpoint.1 j.checkpoint.2
  | creation {a : Address} {mark : Checkpoint} {k : Journal}
      (opened : j.createCheckpoint a = .ok (mark, k))
      (fresh : ∀ x ∈ j.accounts[a]?, x.flags.created = false) : Opens j mark k

theorem Opens.extends {j k : Journal} {mark : Checkpoint} (h : j.Opens mark k) :
    mark = j.mark ∧ j.deeper.Extends k := by
  cases h with
  | call => exact ⟨rfl, .refl _⟩
  | creation opened fresh =>
    obtain ⟨rfl, rfl, x, hx, -, hn⟩ := createCheckpoint_eq_ok opened
    exact ⟨rfl, opened_extends hx hn (fresh x hx)⟩

/-- The open frames, of which the outermost was opened at `i`: each one's journal extends the one
at its checkpoint. -/
def Nested (i : Journal) (k : Journal) : List Checkpoint → Prop
  | [] => i.deeper.Extends k
  | mark :: marks => ∃ j, Nested i j marks ∧ mark = j.mark ∧ j.deeper.Extends k

theorem Nested.extends {i j k : Journal} {marks : List Checkpoint} (h : Nested i j marks)
    (hjk : j.Extends k) : Nested i k marks := by
  cases marks with
  | nil => exact Extends.trans h hjk
  | cons mark marks =>
    obtain ⟨o, ho, hm, hoj⟩ := h
    exact ⟨o, ho, hm, hoj.trans hjk⟩

theorem Alters.extends {α : Type} {db : Database} {x : Loading α} {j : Journal}
    (h : Alters db x j) : j.Extends (leftBy x j) := by
  obtain ⟨i, hji, hi | hi⟩ := h.left
  · rw [hi]
    exact hji.extends
  · exact hji.extends.trans hi.extends

theorem leftBy_transfer_extends {source target : Address} {value : Word} {j : Journal}
    (hroom : errorOf? (transfer source target value) j ≠ some .balanceOverflow)
    (hloaded : errorOf? (transfer source target value) j ≠ some .hostFailure) :
    j.Extends (leftBy (transfer source target value) j) := by
  have ht := transfer_extends source target value j
  simp only [errorOf?] at hroom hloaded
  simp only [leftBy]
  cases hx : transfer source target value j with
  | ok _ k =>
    rw [hx] at ht
    exact ht
  | error e k =>
    rw [hx] at ht hroom hloaded
    obtain rfl | rfl | ht := ht
    · exact absurd rfl hroom
    · exact absurd rfl hloaded
    · exact ht

end Journal

open Journal in
/-- A permitted operation keeps every open frame able to go back. -/
theorem Operation.apply_nested {op : Operation} {i : Journal} {s : Nesting} (db : Database)
    (hp : op.Permitted s) (hn : Journal.Nested i s.journal s.marks) :
    (∃ t, op.apply db s = some t ∧ Journal.Nested i t.journal t.marks) ∨
      op.apply db s = none ∧ op.Overflows s.journal := by
  cases op with
  | loadAccount a => exact .inl ⟨_, rfl, hn.extends (loadAccount_shows a _).looks.extends⟩
  | loadExistence a => exact .inl ⟨_, rfl, hn.extends (loadExistence_shows a _).looks.extends⟩
  | loadCode a => exact .inl ⟨_, rfl, hn.extends (loadCode_shows a _).looks.extends⟩
  | readSlot a key => exact .inl ⟨_, rfl, hn.extends (readSlot_shows a key _).looks.extends⟩
  | writeSlot a key new => exact .inl ⟨_, rfl, hn.extends (writeSlot_alters a key new _).extends⟩
  | selfDestruct a target =>
    exact .inl ⟨_, rfl, hn.extends (selfDestruct_alters a target _).extends⟩
  | touch a => exact .inl ⟨_, rfl, hn.extends (touch_extends _ a)⟩
  | raiseNonce a =>
    cases hk : s.journal.raiseNonce a with
    | some r =>
      obtain ⟨n, k⟩ := r
      refine .inl ⟨{ s with journal := k }, ?_, hn.extends (raiseNonce_extends hk)⟩
      simp only [apply, hk]
    | none =>
      refine .inl ⟨s, ?_, hn⟩
      simp only [apply, hk]
  | log l => exact .inl ⟨_, rfl, hn.extends (log_extends _ l)⟩
  | recordRefund amount =>
    cases hk : s.journal.recordRefund amount with
    | ok k =>
      refine .inl ⟨{ s with journal := k }, ?_, hn.extends (recordRefund_extends hk)⟩
      simp only [apply, hk]
    | error e =>
      have he := recordRefund_error hk
      rw [he] at hk
      refine .inr ⟨?_, amount, rfl, hk⟩
      simp only [apply, hk]
  | transfer source target value =>
    exact .inl ⟨_, rfl, hn.extends (leftBy_transfer_extends hp.1 hp.2)⟩
  | setCode a code => exact .inl ⟨_, rfl, hn.extends (setCode_extends _ a code hp)⟩
  | createCheckpoint a =>
    cases hk : s.journal.createCheckpoint a with
    | ok r =>
      obtain ⟨mark, k⟩ := r
      have he := (Opens.creation hk hp).extends
      refine .inl ⟨⟨k, mark :: s.marks⟩, ?_, s.journal, hn, he⟩
      simp only [apply, hk]
    | error e =>
      refine .inl ⟨s, ?_, hn⟩
      simp only [apply, hk]
  | checkpoint => exact .inl ⟨_, rfl, s.journal, hn, rfl, .refl _⟩
  | commit =>
    obtain ⟨mark, marks, hm⟩ := List.exists_cons_of_ne_nil hp
    rw [hm] at hn
    obtain ⟨j, hj, -, he⟩ := hn
    obtain ⟨l, hl, hjl, -⟩ := he.commit
    refine .inl ⟨⟨l, marks⟩, ?_, hj.extends hjl⟩
    simp only [apply, hm, hl]
  | revert =>
    obtain ⟨mark, marks, hm⟩ := List.exists_cons_of_ne_nil hp
    rw [hm] at hn
    obtain ⟨j, hj, rfl, he⟩ := hn
    obtain ⟨l, hl, hs, -⟩ := he.revert
    refine .inl ⟨⟨l, marks⟩, ?_, hj.extends hs.extends⟩
    simp only [apply, hm, hl]

open Journal in
theorem Operation.applyAll_nested {ops : List Operation} {i : Journal} {s : Nesting}
    (db : Database) (hp : AllPermitted db s ops) (hn : Journal.Nested i s.journal s.marks) :
    (∃ t, applyAll db s ops = some t ∧ Journal.Nested i t.journal t.marks) ∨
      applyAll db s ops = none ∧ ∃ before op after u, ops = before ++ op :: after ∧
        applyAll db s before = some u ∧ op.Overflows u.journal := by
  induction ops generalizing s with
  | nil => exact .inl ⟨s, rfl, hn⟩
  | cons op ops ih =>
    obtain ⟨hop, hops⟩ := hp
    obtain ⟨u, hu, hnu⟩ | ⟨hnone, hover⟩ := apply_nested db hop hn
    · obtain ⟨t, ht, hnt⟩ | ⟨hnone, before, next, after, v, hsplit, hv, hover⟩ := ih (hops u hu) hnu
      · refine .inl ⟨t, ?_, hnt⟩
        simp only [applyAll, hu, ht]
      · refine .inr ⟨?_, op :: before, next, after, v, ?_, ?_, hover⟩
        · simp only [applyAll, hu, hnone]
        · rw [hsplit, List.cons_append]
        · simp only [applyAll, hu, hv]
    · refine .inr ⟨?_, [], op, ops, s, rfl, rfl, hover⟩
      simp only [applyAll, hnone]

/-- Whatever operations follow the opening of a frame, once the frames opened by them are closed,
going back to the checkpoint of the frame succeeds and restores the state before it was opened,
fetched code and the ledger aside. The operations are carried out, unless the refund counter leaves
its range. -/
theorem Journal.revert_restores {db : Database} {j k : Journal} {mark : Checkpoint}
    {ops : List Operation} (ho : j.Opens mark k) (hp : Operation.AllPermitted db ⟨k, []⟩ ops) :
    (∃ t, Operation.applyAll db ⟨k, []⟩ ops = some t ∧
      (t.marks = [] → ∃ r, t.journal.revert mark = .ok r ∧ r.Same j)) ∨
      Operation.applyAll db ⟨k, []⟩ ops = none ∧
        ∃ before op after u, ops = before ++ op :: after ∧
          Operation.applyAll db ⟨k, []⟩ before = some u ∧ op.Overflows u.journal := by
  obtain ⟨rfl, he⟩ := ho.extends
  have hnk : Journal.Nested j k [] := he
  obtain ⟨t, ht, hnt⟩ | hover := Operation.applyAll_nested db hp hnk
  · refine .inl ⟨t, ht, fun hm => ?_⟩
    rw [hm] at hnt
    obtain ⟨r, hr, hs, -⟩ := Extends.revert hnt
    exact ⟨r, hr, hs⟩
  · exact .inr hover

/-- A frame with two accounts and a failing slot: payments to oneself and to a new account, nested
frames of which one creates the account and one fails, self-destruction and a refund. -/
def Operation.mixed : List Operation :=
  [.loadAccount 1, .transfer 1 1 5, .writeSlot 1 0 7, .readSlot 1 1, .checkpoint, .raiseNonce 1,
    .loadExistence 3, .createCheckpoint 3, .transfer 1 3 2, .setCode 3 (Bytes.zeros 1),
    .selfDestruct 3 3, .commit, .writeSlot 3 0 1, .revert, .log ⟨1, [], Bytes.zeros 2⟩,
    .recordRefund 4800, .selfDestruct 1 2, .transfer 2 1 11, .loadCode 2]

def Database.wallet : Database :=
  { Database.empty with
    account := fun a => if a = 1 then some { balance := 10 } else none
    outage := fun _ l => if l = .slot 1 1 then some ⟨"offline"⟩ else none }

open Operation in
theorem Journal.revert_restores_mixed :
    ∃ t r, applyAll .wallet ⟨(ofHardfork .london).checkpoint.2, []⟩ mixed = some t ∧
      t.journal.revert (ofHardfork .london).checkpoint.1 = .ok r ∧
      r.Same (ofHardfork .london) := by
  have hp : AllPermitted .wallet ⟨(ofHardfork .london).checkpoint.2, []⟩ mixed := by decide
  have hm : (applyAll .wallet ⟨(ofHardfork .london).checkpoint.2, []⟩ mixed).map Nesting.marks =
      some [] := by
    decide
  obtain ⟨t, ht, hr⟩ | ⟨hnone, -⟩ := revert_restores .call hp
  · rw [ht] at hm
    obtain ⟨r, hr, hs⟩ := hr (Option.some.inj hm)
    exact ⟨t, r, ht, hr, hs⟩
  · rw [hnone] at hm
    cases hm

end MeteredVM
