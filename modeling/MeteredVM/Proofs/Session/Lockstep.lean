import MeteredVM.Proofs.Journal.Lockstep
import MeteredVM.Transaction

namespace MeteredVM

section Nested

variable {ε σ α β : Type}

/-- From related states both come to related results, and to related states, or to the same fault. -/
def Nested.Lockstep (S : σ → σ → Prop) (Q : α → α → Prop) (x y : Nested σ α) : Prop :=
  ∀ s t, S s t → Agree (fun p q => Q p.1 q.1 ∧ S p.2 q.2) (x s) (y t)

namespace Nested.Lockstep

variable {S : σ → σ → Prop} {Q : α → α → Prop} {R : β → β → Prop} {x y : Nested σ α}

theorem pure {a b : α} (h : Q a b) : Lockstep S Q (pure a : Nested σ α) (pure b) :=
  fun _ _ hs => .ok ⟨h, hs⟩

theorem modify {f : σ → σ} (h : ∀ s t, S s t → S (f s) (f t)) :
    Lockstep S Eq (modify f : Nested σ Unit) (modify f) := fun s t hs => .ok ⟨rfl, h s t hs⟩

theorem fault (z : Except Fault α) : Lockstep S Eq (liftM z : Nested σ α) (liftM z) := by
  intro s t hs
  cases z with
  | ok a => exact .ok ⟨rfl, hs⟩
  | error e => exact .error e

theorem bind {k l : α → Nested σ β} (h : Lockstep S Q x y)
    (hk : ∀ a b, Q a b → Lockstep S R (k a) (l b)) : Lockstep S R (x >>= k) (y >>= l) := by
  intro s t hs
  have hboth := h s t hs
  simp only [Bind.bind, StateT.bind, Except.bind]
  generalize x s = r, y t = r' at hboth ⊢
  cases hboth with
  | ok related => exact hk _ _ related.1 _ _ related.2
  | error e => exact .error e

theorem bind_eq {k l : α → Nested σ β} (h : Lockstep S Eq x y)
    (hk : ∀ a, Lockstep S R (k a) (l a)) : Lockstep S R (x >>= k) (y >>= l) :=
  bind h fun a _ hab => hab ▸ hk a

end Nested.Lockstep

end Nested

namespace Session

variable {ε α : Type} {db : Database}

/-- The sessions are the same, once all codes are fetched. -/
structure Level (db : Database) (s t : Session) : Prop where
  journal : s.journal.Level db t.journal
  failure : s.failure = t.failure
  events : s.events = t.events

theorem Level.refl (s : Session) : s.Level db s := ⟨.refl _, rfl, rfl⟩

theorem Level.goes {s t : Session} {j k : Journal} (h : s.Level db t) (hjk : j.Level db k) :
    Level db { s with journal := j } { t with journal := k } :=
  { h with journal := hjk }

def level (db : Database) : Coupling Session Session := ⟨Level db, Level db⟩

theorem after_level (status : Status) : (level db).after status = Level db := by
  unfold Coupling.after
  split
  · rfl
  · rfl

theorem load_lockstep {Q : α → α → Prop} {y : Loading α}
    (hy : Lockstep (Journal.Level db) Q y y) : Lockstep (Level db) Q (load y) (load y) := by
  intro s t h
  have hboth := hy _ _ h.journal
  simp only [load]
  generalize y s.journal = r, y t.journal = r' at hboth ⊢
  cases hboth with
  | ok related states => exact .ok related (h.goes states)
  | @error e j k states =>
    have hfailed : Level db { s with journal := j, failure := some e }
        { t with journal := k, failure := some e } := ⟨states, rfl, h.events⟩
    exact .error Unavailable.mk hfailed

theorem query_level {y : Loading α} (hy : Lockstep (Journal.Level db) Eq y y) :
    Query.Coupled (level db) (load y) (load y) := by
  intro s t h
  have hboth := load_lockstep hy s t h
  generalize load y s = r, load y t = r' at hboth ⊢
  cases hboth with
  | ok related states => exact related ▸ .answered _ states
  | error e states => exact .failed states

theorem require_lockstep (hdb : db.Steady) (a : Address) (refusal : ε) :
    Lockstep (Level db) Eq (require db a refusal) (require db a refusal) := by
  intro s t h
  have hboth := load_lockstep (Journal.loadAccount_lockstep hdb a) s t h
  simp only [require]
  generalize load _ s = r, load _ t = r' at hboth ⊢
  cases hboth with
  | ok related states => exact .ok rfl states
  | error e states => exact .error refusal states

theorem move_lockstep {p : TransferPolicy} (hp : p.Sound) (source target : Address) (value : Word) :
    Lockstep (Level db) Eq (move p source target value) (move p source target value) := by
  intro s t h
  have hboth := hp.move_lockstep source target value _ _ h.journal
  simp only [move]
  generalize p.move _ _ _ s.journal = r, p.move _ _ _ t.journal = r' at hboth ⊢
  cases hboth with
  | ok related states => exact .ok rfl (h.goes states)
  | error e states => exact .error e (h.goes states)

theorem attempt_lockstep {Q : α → α → Prop} {x y : EStateM ε Session α}
    (h : Lockstep (Level db) Q x y) :
    Nested.Lockstep (Level db) (Except.Rel Q) (attempt x) (attempt y) := by
  intro s t hst
  have hboth := h s t hst
  simp only [attempt]
  generalize x s = r, y t = r' at hboth ⊢
  cases hboth with
  | ok related states => exact .ok ⟨.ok related, states⟩
  | error e states => exact .ok ⟨.error e, states⟩

theorem onJournal_lockstep {change : Journal → Except Fault Journal}
    (h : ∀ j k, Journal.Level db j k → Agree (Journal.Level db) (change j) (change k)) :
    Nested.Lockstep (Level db) Eq (onJournal change) (onJournal change) := by
  intro s t hst
  have hboth := h _ _ hst.journal
  unfold onJournal
  generalize change s.journal = r, change t.journal = r' at hboth ⊢
  cases hboth with
  | ok related => exact .ok ⟨rfl, hst.goes related⟩
  | error e => exact .error e

theorem commit_lockstep : Nested.Lockstep (Level db) Eq commit commit :=
  onJournal_lockstep fun _ _ h => h.commit

theorem revert_lockstep (mark : Checkpoint) :
    Nested.Lockstep (Level db) Eq (revert mark) (revert mark) :=
  onJournal_lockstep fun _ _ h => h.revert mark

theorem checkpoint_lockstep : Nested.Lockstep (Level db) Eq checkpoint checkpoint :=
  fun _ _ h => .ok ⟨h.journal.mark, h.goes h.journal.deeper⟩

theorem emit_lockstep (event : Nat → FrameEvent) :
    Nested.Lockstep (Level db) Eq (emit event) (emit event) := by
  refine .modify fun s t h => { h with events := ?_ }
  rw [h.journal.depth, h.events]

end Session

namespace Executor

open Session

variable {x : Executor} {inner : Option (Host Session)}

abbrev Even (db : Database) (inner : Option (Host Session)) : Prop :=
  ∀ h ∈ inner, h.Coupled (level db) h

theorem runCode_lockstep {db : Database} {h : Host Session} (hh : h.Coupled (level db) h)
    (i : Invocation) (gasLimit : Nat) :
    Nested.Lockstep (Level db) Eq (runCode h i gasLimit) (runCode h i gasLimit) := by
  intro s t hst
  have hstart : Machine.Coupled (level db) ⟨.start i gasLimit, s⟩ ⟨.start i gasLimit, t⟩ := by
    refine ⟨rfl, ?_⟩
    rw [after_level]
    exact hst
  have hrun := Machine.run_coupled hh hstart
  simp only [runCode]
  generalize Machine.run h ⟨.start i gasLimit, s⟩ = r,
    Machine.run h ⟨.start i gasLimit, t⟩ = r' at hrun ⊢
  cases hrun with
  | ok related =>
    obtain ⟨hframe, hworld⟩ := related
    rw [after_level] at hworld
    exact .ok ⟨hframe.symm, hworld⟩
  | error e => exact .error e

section Calls

variable (hp : x.transfers.Sound) (hdb : x.database.Steady) {r : CallRequest}

include hp hdb

theorem payCall_lockstep : Lockstep (Level x.database) Eq (x.payCall r) (x.payCall r) := by
  refine .bind (require_lockstep hdb _ _) fun _ _ _ => ?_
  refine .bind (require_lockstep hdb _ _) fun _ _ _ => ?_
  refine .bind (.modify fun s t h => h.goes (h.journal.touch _)) fun _ _ _ => ?_
  refine .bind .get fun s t h => ?_
  rw [hp.allows_level h.journal]
  split
  · exact .throw _
  · exact move_lockstep hp _ _ _

theorem openCall_lockstep :
    Nested.Lockstep (Level x.database) (Except.Rel Eq) (x.openCall r) (x.openCall r) := by
  refine .bind_eq checkpoint_lockstep fun mark => ?_
  refine .bind (attempt_lockstep (payCall_lockstep hp hdb)) fun paid paid' hpaid => ?_
  cases hpaid with
  | ok related => exact .pure (.ok rfl)
  | error status => exact .bind_eq (revert_lockstep mark) fun _ => .pure (.error status)

omit hp hdb in
theorem closeCall_lockstep (mark : Checkpoint) (f : Frame) :
    Nested.Lockstep (Level x.database) Eq (closeCall mark f) (closeCall mark f) := by
  unfold closeCall
  split
  · refine .bind_eq commit_lockstep fun _ => .bind_eq (emit_lockstep _) fun _ => ?_
    exact .bind_eq (.fault _) fun output => .pure rfl
  · refine .bind_eq (revert_lockstep mark) fun _ => .bind_eq (emit_lockstep _) fun _ => ?_
    exact .bind_eq (.fault _) fun output => .pure rfl

theorem callCode_lockstep (hinner : Even x.database inner) (code : Bytes) :
    Nested.Lockstep (Level x.database) Eq (x.callCode inner r code) (x.callCode inner r code) := by
  refine .bind_eq (emit_lockstep _) fun _ => ?_
  cases inner with
  | none => exact .pure rfl
  | some h =>
    refine .bind (openCall_lockstep hp hdb) fun opened opened' hopened => ?_
    cases hopened with
    | error status => exact .pure rfl
    | @ok mark _ related =>
      cases related
      dsimp only
      split
      · exact .bind_eq commit_lockstep fun _ => .pure rfl
      · exact .bind_eq (runCode_lockstep (hinner h rfl) _ _) fun f => closeCall_lockstep mark f

theorem call_lockstep (hinner : Even x.database inner) :
    Nested.Lockstep (Level x.database) Eq (x.call inner r) (x.call inner r) := by
  refine .bind (attempt_lockstep (load_lockstep (Journal.loadCode_lockstep hdb _))) ?_
  intro loaded loaded' hloaded
  cases hloaded with
  | ok related =>
    cases related
    exact callCode_lockstep hp hdb hinner _
  | error e => exact .pure rfl

end Calls

section Creates

variable (hp : x.transfers.Sound) (hdb : x.database.Steady) {r : CreateRequest}

include hp hdb

theorem countCreation_lockstep :
    Lockstep (Level x.database) Eq (x.countCreation r) (x.countCreation r) := by
  refine .bind (require_lockstep hdb _ _) fun _ _ _ => ?_
  refine .bind .get fun s t h => ?_
  rw [hp.allows_level h.journal]
  split
  · exact .throw _
  refine .bind .get fun s t h => ?_
  have hraised := h.journal.raiseNonce r.creator
  generalize s.journal.raiseNonce r.creator = p?, t.journal.raiseNonce r.creator = q? at hraised ⊢
  cases hraised with
  | none => exact .throw _
  | @some p q related =>
    obtain ⟨n, j⟩ := p
    obtain ⟨_, k⟩ := q
    obtain ⟨rfl, hjk⟩ := related
    exact .bind (.modify fun s t h => h.goes hjk) fun _ _ _ => .pure rfl

theorem openCreate_lockstep :
    Lockstep (Level x.database) Eq (x.openCreate r) (x.openCreate r) := by
  refine .bind (countCreation_lockstep hp hdb) ?_
  rintro nonce _ rfl
  refine .bind (require_lockstep hdb _ _) fun _ _ _ => ?_
  refine .bind .get fun s t h => ?_
  have hopened := h.journal.createCheckpoint (createdAddress r nonce)
  generalize s.journal.createCheckpoint _ = p?, t.journal.createCheckpoint _ = q? at hopened ⊢
  cases hopened with
  | error status => exact .throw _
  | @ok p q related =>
    obtain ⟨mark, j⟩ := p
    obtain ⟨_, k⟩ := q
    obtain ⟨rfl, hjk⟩ := related
    exact .bind (.modify fun s t h => h.goes hjk) fun _ _ _ => .pure rfl

theorem endowCreate_lockstep :
    Nested.Lockstep (Level x.database) Eq (x.endowCreate r) (x.endowCreate r) := by
  refine .bind (attempt_lockstep (openCreate_lockstep hp hdb)) fun opened opened' hopened => ?_
  cases hopened with
  | error why => exact .pure rfl
  | @ok p _ related =>
    cases related
    refine .bind (attempt_lockstep (move_lockstep hp _ _ _)) fun moved moved' hmoved => ?_
    cases hmoved with
    | ok related => exact .pure rfl
    | error status => exact .bind_eq (revert_lockstep _) fun _ => .pure rfl

omit hp hdb in
theorem closeCreate_lockstep (address : Address) (mark : Checkpoint) (f : Frame) :
    Nested.Lockstep (Level x.database) Eq (x.closeCreate address mark f)
      (x.closeCreate address mark f) := by
  simp only [closeCreate]
  split
  · refine .bind_eq (revert_lockstep mark) fun _ => ?_
    exact .bind_eq (.fault _) fun output => .pure rfl
  · refine .bind_eq (.fault _) fun output => ?_
    cases x.deposit f.gas output with
    | error status => exact .bind_eq (revert_lockstep mark) fun _ => .pure rfl
    | ok p =>
      refine .bind_eq commit_lockstep fun _ => ?_
      exact .bind_eq (.modify fun s t h => h.goes (h.journal.setCode _ _)) fun _ => .pure rfl

theorem create_lockstep (hinner : Even x.database inner) :
    Nested.Lockstep (Level x.database) Eq (x.create inner r) (x.create inner r) := by
  refine .bind_eq (emit_lockstep _) fun _ => ?_
  cases inner with
  | none => exact .pure rfl
  | some h =>
    refine .bind_eq (endowCreate_lockstep hp hdb) fun endowed => ?_
    cases endowed with
    | error why => exact .pure rfl
    | ok p =>
      refine .bind_eq (runCode_lockstep (hinner h rfl) _ _) fun f => ?_
      refine .bind_eq (closeCreate_lockstep _ _ f) fun reply => ?_
      exact .bind_eq (emit_lockstep _) fun _ => .pure rfl

end Creates

section Hosts

variable (hp : x.transfers.Sound) (hdb : x.database.Steady)

theorem nested_level {db : Database} {α : Type} {status : α → Status} {y : Nested Session α}
    (h : Nested.Lockstep (Level db) Eq y y) : Nested.Coupled (level db) status y y := by
  intro s t hst
  have hboth := h s t hst
  generalize y s = r, y t = r' at hboth ⊢
  cases hboth with
  | ok related =>
    refine .ok ⟨related.1, ?_⟩
    rw [after_level]
    exact related.2
  | error e => exact .error e

theorem loadAccount_reads {α : Type} (db : Database) (hdb : db.Steady) (a : Address)
    (f : Account → α) (hf : ∀ y z, y.Level db z → f y = f z) :
    Query.Coupled (level db) (load do
        let found ← Journal.loadAccount db a
        return (⟨f found.value, found.cold⟩ : Loaded α))
      (load do
        let found ← Journal.loadAccount db a
        return ⟨f found.value, found.cold⟩) := by
  refine query_level (.bind (Journal.loadAccount_lockstep hdb a) fun found found' hfound => ?_)
  rw [hf _ _ hfound.1, hfound.2]
  exact .pure rfl

include hp hdb

theorem host_level (hinner : Even x.database inner) :
    (x.host inner).Coupled (level x.database) (x.host inner) where
  environment := rfl
  existence a := query_level (Journal.loadExistence_lockstep hdb a)
  blockHash number := query_level (Journal.loadBlockHash_lockstep hdb number)
  balance a := loadAccount_reads x.database hdb a (·.info.balance) fun _ _ h => h.balance
  code a := query_level (Journal.loadCode_lockstep hdb a)
  codeHash a := loadAccount_reads x.database hdb a
    (fun y => if y.info.isEmpty then 0 else y.info.codeHash) fun _ _ h => by
      rw [h.isEmpty, h.codeHash]
  readSlot a key := query_level (Journal.readSlot_lockstep hdb a key)
  writeSlot a key new := query_level (Journal.writeSlot_lockstep hdb a key new)
  selfDestruct a target := query_level (Journal.selfDestruct_lockstep hdb a target)
  refund amount s t h := by
    have hrecorded := Journal.Level.recordRefund h.journal amount
    simp only [host]
    generalize s.journal.recordRefund amount = r, t.journal.recordRefund amount = r' at hrecorded ⊢
    cases hrecorded with
    | ok related => exact .ok (Level.goes h related)
    | error e => exact .error e
  log l s t h := Level.goes h (Journal.Level.log h.journal l)
  call r := nested_level (call_lockstep hp hdb hinner)
  create r := nested_level (create_lockstep hp hdb hinner)

theorem hostWithin_even (room : Nat) : Even x.database (x.hostWithin room) := by
  induction room with
  | zero => nofun
  | succ room ih =>
    rintro _ ⟨⟩
    exact host_level hp hdb ih

end Hosts

end Executor

end MeteredVM
