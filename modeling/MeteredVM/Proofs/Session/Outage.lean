import MeteredVM.Proofs.Frame.Coupling
import MeteredVM.Proofs.Journal.Mends
import MeteredVM.Proofs.Journal.Outage
import MeteredVM.Proofs.Session.Charter
import MeteredVM.Proofs.Session.Frugal

namespace MeteredVM

open Journal

namespace Session

variable {α ε : Type} {db : Database} {s t : Session} {status : Status}

structure Clear (db : Database) (s : Session) : Prop where
  failure : s.failure = none
  answers : db.Answers s.journal.lookups

def Failed (db : Database) (s : Session) : Prop :=
  ∃ outage, s.failure = some outage ∧ db.FailsWith outage s.journal.lookups

/-- Something has come to an end by itself and no lookup has failed, or because one has failed. -/
def Concludes (db : Database) (status : Status) (s : Session) : Prop :=
  status.Conclusive ∧ s.Clear db ∨ status = .hostFailure ∧ s.Failed db

structure Silent (s t : Session) : Prop where
  failure : t.failure = s.failure
  lookups : t.journal.lookups = s.journal.lookups

theorem Silent.of_journal {j : Journal} (h : j.lookups = s.journal.lookups) :
    s.Silent { s with journal := j } :=
  ⟨rfl, h⟩

theorem Clear.silent (hs : s.Clear db) (h : s.Silent t) : t.Clear db :=
  ⟨h.failure.trans hs.failure, h.lookups ▸ hs.answers⟩

theorem Concludes.silent (hs : s.Concludes db status) (h : s.Silent t) : t.Concludes db status := by
  obtain ⟨hstatus, hs⟩ | ⟨hstatus, outage, hfailure, hfails⟩ := hs
  · exact .inl ⟨hstatus, hs.silent h⟩
  · exact .inr ⟨hstatus, outage, h.failure.trans hfailure, h.lookups ▸ hfails⟩

theorem Concludes.fails (hs : s.Failed db) : s.Concludes db .hostFailure := .inr ⟨rfl, hs⟩

theorem load_concludes {y : Loading α} (hy : Heeds db y) (hs : s.Clear db) :
    Ends (load y) s (fun _ t => t.Failed db) fun _ t => t.Clear db := by
  apply load_rule
  have hends := hy s.journal hs.answers
  exact (hends.refused fun outage _ hk => ⟨outage, rfl, hk⟩).imp fun _ _ hk => ⟨hs.failure, hk⟩

theorem require_concludes (a : Address) (refusal : ε) (hs : s.Clear db) :
    Ends (require db a refusal) s (fun e t => e = refusal ∧ t.Failed db) fun _ t => t.Clear db := by
  apply require_rule
  have hload := load_concludes (.loadAccount a) hs
  exact hload.refused fun _ _ ht => ⟨rfl, ht⟩

theorem move_concludes {p : TransferPolicy} {source target : Address} {value : Word} (hp : p.Sound)
    (payer : (s.journal.accounts[source]?).isSome) (payee : (s.journal.accounts[target]?).isSome)
    (hs : s.Clear db) :
    Ends (move p source target value) s (fun status t => t.Concludes db status)
      fun _ t => t.Clear db := by
  apply move_rule
  have hmove := hp.plain payer payee value
  refine (hmove.refused fun _ _ hk => ?_).imp fun _ _ hk => ?_
  · exact .inl ⟨hk.1, hs.silent (.of_journal hk.2.lookups)⟩
  · exact hs.silent (.of_journal hk.lookups)

theorem onJournal_silent {change : Journal → Except Fault Journal}
    (h : ∀ j k, change j = .ok k → k.lookups = j.lookups) :
    Yields (onJournal change) s (fun _ => True) fun _ t => s.Silent t := by
  apply Yields.any
  rintro _ t hrun
  obtain ⟨j, hj, hjt⟩ := Except.map_eq_ok hrun
  cases hjt
  exact .of_journal (h _ _ hj)

theorem commit_silent : Yields commit s (fun _ => True) fun _ t => s.Silent t := by
  apply onJournal_silent
  intro j k hk
  rw [commit_eq_ok hk]

theorem revert_silent {mark : Checkpoint} :
    Yields (revert mark) s (fun _ => True) fun _ t => s.Silent t := by
  apply onJournal_silent
  intro j k hk
  unfold Journal.revert at hk
  split at hk
  · cases hk
  split at hk
  · cases hk
  · obtain ⟨m, -, hk⟩ := Except.bind_eq_ok hk
    cases hk
    rfl

theorem noting_silent (s : Session) (event : Nat → FrameEvent) : s.Silent (s.noting event) :=
  ⟨rfl, rfl⟩

def heeding (db : Database) : Coupling Session Session where
  serving s t := s = t ∧ s.Clear db
  failed s t := s = t ∧ s.Failed db

theorem Concludes.after (hs : s.Concludes db status) : (heeding db).after status s s := by
  obtain ⟨hstatus, hs⟩ | ⟨rfl, hs⟩ := hs
  · rw [Coupling.after_of_ne _ hstatus.ne_hostFailure]
    exact ⟨rfl, hs⟩
  · exact ⟨rfl, hs⟩

theorem Concludes.of_after (running : status ≠ .running) (h : (heeding db).after status s t) :
    s.Concludes db status := by
  by_cases hstatus : status = .hostFailure
  · subst hstatus
    exact .fails h.2
  · rw [Coupling.after_of_ne _ hstatus] at h
    exact .inl ⟨Status.conclusive_of_ne running hstatus, h.2⟩

theorem query_heeding {y : Loading α} (hy : Heeds db y) :
    Query.Coupled (heeding db) (load y) (load y) := by
  rintro s _ ⟨rfl, hs⟩
  have hends := load_concludes hy hs
  simp only [Ends] at hends
  generalize load y s = r at hends ⊢
  cases r with
  | ok a t => exact .answered a ⟨rfl, hends⟩
  | error e t => exact .failed ⟨rfl, hends⟩

theorem nested_heeding {y : Nested Session α} {status : α → Status}
    (h : ∀ s : Session, s.Clear db →
      Yields y s (fun _ => True) fun a t => t.Concludes db (status a)) :
    Nested.Coupled (heeding db) status y y := by
  rintro s _ ⟨rfl, hs⟩
  obtain ⟨hok, -⟩ := Yields.iff.mp (h s hs)
  cases hy : y s with
  | ok p => exact .ok ⟨rfl, (hok p.1 p.2 hy).after⟩
  | error e => exact .error e

end Session

namespace Executor

open Session

variable {x : Executor} {inner : Option (Host Session)} {s : Session}

/-- Nested frames end because their host has failed exactly if a lookup has failed. -/
def Heedful (db : Database) (inner : Option (Host Session)) : Prop :=
  ∀ h ∈ inner, h.Frugal ∧ h.Coupled (heeding db) h

theorem runCode_concludes {h : Host Session} {i : Invocation} {gasLimit : Nat} (hh : h.Frugal)
    (hcoupled : h.Coupled (heeding x.database) h) (hs : s.Clear x.database) :
    Yields (runCode h i gasLimit) s (fun _ => True) fun f t => t.Concludes x.database f.status := by
  apply Yields.any
  intro f t hrun
  obtain ⟨m, hm, hft⟩ := Except.map_eq_ok hrun
  cases hft
  have hstart : Machine.Coupled (heeding x.database) ⟨.start i gasLimit, s⟩
      ⟨.start i gasLimit, s⟩ :=
    ⟨rfl, rfl, hs⟩
  have hends := Machine.run_coupled hcoupled hstart
  rw [hm] at hends
  obtain ⟨-, running⟩ := Machine.run_ends hh (fun hP : False => hP.elim) hm
  cases hends with
  | ok related => exact .of_after running related.world

section Calls

variable {r : CallRequest}

theorem payCall_concludes (hp : x.transfers.Sound) (hs : s.Clear x.database) :
    Ends (x.payCall r) s (fun status t => t.Concludes x.database status)
      fun _ t => t.Clear x.database := by
  unfold payCall
  refine Ends.bind (((require_ends _ _ _).and (require_concludes _ _ hs)).refused ?_) ?_
  · rintro _ t ⟨⟨rfl, -⟩, -, ht⟩
    exact .fails ht
  rintro - s₁ ⟨⟨-, hsource⟩, h₁⟩
  refine Ends.bind (((require_ends _ _ _).and (require_concludes _ _ h₁)).refused ?_) ?_
  · rintro _ t ⟨⟨rfl, -⟩, -, ht⟩
    exact .fails ht
  rintro - s₂ ⟨⟨hlooks, htarget⟩, h₂⟩
  apply Ends.bind .modify
  rintro - s₃ rfl
  have h₃ := h₂.silent (.of_journal (touch_lookups s₂.journal r.target))
  apply Ends.bind .get
  rintro _ _ ⟨rfl, rfl⟩
  split
  · exact .throw (.inl ⟨rfl, h₃⟩)
  · refine move_concludes hp ?_ ?_ h₃
    · rw [loaded_touch]
      exact Looks.loaded hlooks hsource
    · rw [loaded_touch]
      exact htarget

theorem openCall_concludes (hp : x.transfers.Sound) (hs : s.Clear x.database) :
    Yields (x.openCall r) s (fun _ => True) fun opened t =>
      match opened with
      | .ok _ => t.Clear x.database
      | .error status => t.Concludes x.database status := by
  have hopened : Session.Clear x.database { s with journal := s.journal.checkpoint.2 } :=
    hs.silent (.of_journal rfl)
  apply openCall_rule
  refine (payCall_concludes hp hopened).refused fun status t ht => ?_
  exact revert_silent.imp fun _ _ hsilent => ht.silent hsilent

theorem closeCall_concludes {mark : Checkpoint} {f : Frame} (hs : s.Concludes x.database f.status) :
    Yields (closeCall mark f) s (fun _ => True) fun reply t =>
      t.Concludes x.database reply.status := by
  apply closeCall_rule
  · exact fun _ _ => trivial
  · exact fun _ => commit_silent.imp fun _ _ h _ => (hs.silent h).silent (noting_silent _ _)
  · exact fun _ => revert_silent.imp fun _ _ h _ => (hs.silent h).silent (noting_silent _ _)

theorem callCode_concludes {code : Bytes} (hp : x.transfers.Sound)
    (hinner : Heedful x.database inner) (hs : s.Clear x.database) :
    Yields (x.callCode inner r code) s (fun _ => True) fun reply t =>
      t.Concludes x.database reply.status := by
  apply Yields.bind .emit
  rintro _ _ rfl
  have h₁ := hs.silent (noting_silent s (.callOpened · r.codeAddress r.gasLimit))
  cases inner with
  | none => exact .pure (.inl ⟨rfl, h₁⟩)
  | some h =>
    apply Yields.bind (openCall_concludes hp h₁)
    intro opened s₂ h₂
    cases opened with
    | error status => exact .pure h₂
    | ok mark =>
      dsimp only
      split
      · apply Yields.bind commit_silent
        intro _ s₃ h₃
        exact .pure (.inl ⟨rfl, h₂.silent h₃⟩)
      · obtain ⟨hh, hcoupled⟩ := hinner h rfl
        apply Yields.bind (runCode_concludes hh hcoupled h₂)
        intro f s₃ h₃
        exact closeCall_concludes h₃

theorem call_concludes (hp : x.transfers.Sound) (hinner : Heedful x.database inner)
    (hs : s.Clear x.database) :
    Yields (x.call inner r) s (fun _ => True) fun reply t =>
      t.Concludes x.database reply.status := by
  apply Yields.bind (.attempt (load_concludes (.loadCode r.codeAddress) hs))
  intro loaded s₁ h₁
  cases loaded with
  | ok code => exact callCode_concludes hp hinner h₁.2
  | error e => exact .pure (.fails h₁)

end Calls

section Creates

variable {r : CreateRequest}

theorem countCreation_concludes (hs : s.Clear x.database) :
    Ends (x.countCreation r) s (fun why t => t.Concludes x.database why.status)
      fun _ t => t.Clear x.database := by
  unfold countCreation
  refine Ends.bind ((require_concludes _ _ hs).refused ?_) ?_
  · rintro _ t ⟨rfl, ht⟩
    exact .fails ht
  rintro - s₁ h₁
  apply Ends.bind .get
  rintro _ _ ⟨rfl, rfl⟩
  split
  · exact .throw (.inl ⟨rfl, h₁⟩)
  apply Ends.bind .get
  rintro _ _ ⟨rfl, rfl⟩
  split
  · rename_i nonce j hraise
    apply Ends.bind .modify
    rintro - _ rfl
    exact .pure (h₁.silent (.of_journal (Plain.raiseNonce hraise).lookups))
  · exact .throw (.inl ⟨rfl, h₁⟩)

theorem createCheckpoint_error {j : Journal} {a : Address} {status : Status}
    (ha : (j.accounts[a]?).isSome) (h : j.createCheckpoint a = .error status) :
    status.Conclusive := by
  obtain ⟨y, hy⟩ := Option.isSome_iff_exists.mp ha
  simp only [createCheckpoint, hy] at h
  split at h
  · cases h
    rfl
  · cases h

theorem openCreate_concludes (hs : s.Clear x.database) :
    Ends (x.openCreate r) s (fun why t => t.Concludes x.database why.status)
      fun _ t => t.Clear x.database := by
  unfold openCreate
  apply Ends.bind (countCreation_concludes hs)
  intro n s₁ h₁
  refine Ends.bind (((require_ends _ _ _).and (require_concludes _ _ h₁)).refused ?_) ?_
  · rintro _ t ⟨⟨rfl, -⟩, -, ht⟩
    exact .fails ht
  rintro - s₂ ⟨⟨-, hloaded⟩, h₂⟩
  apply Ends.bind .get
  rintro _ _ ⟨rfl, rfl⟩
  split
  · rename_i mark j hopen
    apply Ends.bind .modify
    rintro - _ rfl
    obtain ⟨-, rfl, y, hy, -, hnonce⟩ := createCheckpoint_eq_ok hopen
    exact .pure (h₂.silent (.of_journal (Plain.opened hy hnonce).lookups))
  · rename_i status hopen
    exact .throw (.inl ⟨createCheckpoint_error hloaded hopen, h₂⟩)

theorem endowCreate_concludes (hp : x.transfers.Sound) (hs : s.Clear x.database) :
    Yields (x.endowCreate r) s (fun _ => True) fun endowed t =>
      match endowed with
      | .ok _ => t.Clear x.database
      | .error why => t.Concludes x.database why.status := by
  apply endowCreate_rule ((openCreate_ends.and (openCreate_concludes hs)).refused fun _ _ h => h.2)
  rintro p t - ⟨⟨n, k, hclaims, -, ht⟩, hclear⟩
  obtain ⟨payer, payee⟩ := hclaims.parties
  rw [← ht] at payer payee
  refine (move_concludes hp payer payee hclear).refused fun _ u hu => ?_
  exact revert_silent.imp fun _ _ hsilent => hu.silent hsilent

theorem closeCreate_concludes {address : Address} {mark : Checkpoint} {f : Frame}
    (hs : s.Concludes x.database f.status) :
    Yields (x.closeCreate address mark f) s (fun _ => True) fun reply t =>
      t.Concludes x.database reply.status := by
  apply closeCreate_rule
  · exact fun _ _ => trivial
  · exact fun _ => revert_silent.imp fun _ _ h _ => hs.silent h
  · exact fun _ _ _ _ _ _ => commit_silent.imp fun _ _ h =>
      (hs.silent h).silent (.of_journal (Plain.setCode _ _ _).lookups)
  · intro hok output status hdeposit
    obtain ⟨-, hclear⟩ | ⟨hfailed, -⟩ := hs
    · exact revert_silent.imp fun _ _ h => .inl ⟨(deposit_error hdeposit).1, hclear.silent h⟩
    · rw [hfailed] at hok
      cases hok

theorem create_concludes (hp : x.transfers.Sound) (hinner : Heedful x.database inner)
    (hs : s.Clear x.database) :
    Yields (x.create inner r) s (fun _ => True) fun reply t =>
      t.Concludes x.database reply.status := by
  apply Yields.bind .emit
  rintro _ _ rfl
  have h₁ := hs.silent (noting_silent s (.createOpened · r.creator r.gasLimit))
  cases inner with
  | none => exact .pure (.inl ⟨rfl, h₁⟩)
  | some h =>
    apply Yields.bind (endowCreate_concludes hp h₁)
    intro endowed s₂ h₂
    cases endowed with
    | error why => exact .pure h₂
    | ok p =>
      obtain ⟨address, mark⟩ := p
      obtain ⟨hh, hcoupled⟩ := hinner h rfl
      apply Yields.bind (runCode_concludes hh hcoupled h₂)
      intro f s₃ h₃
      apply Yields.bind (closeCreate_concludes h₃)
      intro reply s₄ h₄
      apply Yields.bind .emit
      rintro _ _ rfl
      exact .pure (h₄.silent (noting_silent _ _))

end Creates

theorem host_heeding (hp : x.transfers.Sound) (hinner : Heedful x.database inner) :
    (x.host inner).Coupled (heeding x.database) (x.host inner) where
  environment := rfl
  existence a := query_heeding (.loadExistence a)
  blockHash number := query_heeding (.loadBlockHash number)
  balance a := query_heeding (.bind (.loadAccount a) fun _ => .pure)
  code a := query_heeding (.loadCode a)
  codeHash a := query_heeding (.bind (.loadAccount a) fun _ => .pure)
  readSlot a key := query_heeding (.readSlot a key)
  writeSlot a key new := query_heeding (.writeSlot a key new)
  selfDestruct a target := query_heeding (.selfDestruct a target)
  refund amount s _ := by
    rintro ⟨rfl, hs⟩
    simp only [host]
    cases hrecorded : s.journal.recordRefund amount with
    | ok k =>
      have hk := hs.silent (t := { s with journal := k })
        (.of_journal (by rw [recordRefund_eq_ok hrecorded]))
      exact .ok ⟨rfl, hk⟩
    | error e => exact .error e
  log l s _ := by
    rintro ⟨rfl, hs⟩
    exact ⟨rfl, hs.silent (.of_journal rfl)⟩
  call r := nested_heeding fun s hs => call_concludes hp hinner hs
  create r := nested_heeding fun s hs => create_concludes hp hinner hs

theorem hostWithin_heedful (hp : x.transfers.Sound) (room : Nat) :
    Heedful x.database (x.hostWithin room) := by
  induction room with
  | zero => nofun
  | succ room ih =>
    rintro _ ⟨⟩
    exact ⟨x.host_frugal room, host_heeding hp ih⟩

end Executor

end MeteredVM
