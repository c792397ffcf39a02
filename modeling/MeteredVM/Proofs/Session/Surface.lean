import MeteredVM.Proofs.Session.Coverage
import MeteredVM.Proofs.Session.Outage
import MeteredVM.Transaction

namespace MeteredVM

open Journal

/-- How lookups show in the result of a transaction, the newest first: there is a report if none has
failed, and if one has, it was the last and the result is its outage. -/
inductive Database.Surfaces (db : Database) :
    List Lookup → Except Abort (Report × Accounts) → Prop
  | answered {lookups : List Lookup} (r : Report × Accounts) (answers : db.Answers lookups) :
      Surfaces db lookups (.ok r)
  | failed {lookups : List Lookup} {outage : Outage} (fails : db.FailsWith outage lookups) :
      Surfaces db lookups (.error (.database outage))

theorem Database.Surfaces.fails {db : Database} {lookups : List Lookup}
    {result : Except Abort (Report × Accounts)} (h : db.Surfaces lookups result)
    (aborted : result.isOk = false) :
    ∃ outage, db.FailsWith outage lookups ∧ result = .error (.database outage) := by
  cases h with
  | answered r answers => cases aborted
  | failed fails => exact ⟨_, fails, rfl⟩

namespace Executor

variable {x : Executor} {task : Task} {gasLimit : Nat} {s : Session}

/-- The lookups that a transaction makes of the database, the newest first. -/
def consulted (x : Executor) (task : Task) (gasLimit : Nat) : Except Fault (List Lookup) :=
  match loadAll x.database (x.warm (x.targetOf task)) (.ofHardfork x.rules.hardfork) with
  | .error _ j => .ok j.lookups
  | .ok _ j => (x.runTask task gasLimit { journal := j }).map (·.2.journal.lookups)

theorem loadAll_heeds (db : Database) (accounts : List Address) :
    Heeds db (loadAll db accounts) := by
  induction accounts with
  | nil => exact .pure
  | cons a rest ih => exact .bind (.loadAccount a) fun _ => ih

structure Ended.Conclusive (db : Database) (e : Ended) (s : Session) : Prop where
  concludes : s.Concludes db e.status
  limit : e.gas.remaining ≤ e.gas.limit

theorem runTask_conclusive (task : Task) (hp : x.transfers.Sound) (hgas : gasLimit ≤ Amount.max)
    (hs : s.Clear x.database) :
    Yields (x.runTask task gasLimit) s (s.journal.Overruns (gasLimit + 1)) fun e t =>
      e.Conclusive x.database t := by
  have hmoderate := x.hostWithin_moderate hp maxFrames
  have hheedful := x.hostWithin_heedful hp maxFrames
  unfold runTask
  cases task with
  | code code input =>
    apply Yields.bind ((callCode_covered hp hmoderate hgas).and (callCode_concludes hp hheedful hs))
    rintro reply t ⟨hcovered, hconcludes⟩
    exact .pure ⟨hconcludes, hcovered.limit⟩
  | call target input =>
    apply Yields.bind ((call_covered hp hmoderate hgas).and (call_concludes hp hheedful hs))
    rintro reply t ⟨hcovered, hconcludes⟩
    exact .pure ⟨hconcludes, hcovered.limit⟩
  | create initCode =>
    apply Yields.bind ((create_covered hp hmoderate hgas).and (create_concludes hp hheedful hs))
    rintro reply t ⟨hcovered, hconcludes⟩
    exact .pure ⟨hconcludes, hcovered.limit⟩

theorem conclude_surfaces {e : Ended} (h : e.Conclusive x.database s) :
    ∃ T, x.conclude e s = .ok T ∧ x.database.Surfaces s.journal.lookups T.result := by
  obtain ⟨hstatus, hclear⟩ | ⟨-, outage, hfailure, hfails⟩ := h.concludes
  · obtain ⟨outcome, houtcome⟩ := Option.isSome_iff_exists.mp hstatus
    have hspent : e.gas.spent = .ok (e.gas.limit - e.gas.remaining) := if_pos h.limit
    simp only [conclude, hclear.failure, houtcome, report, hspent]
    exact ⟨_, rfl, .answered _ hclear.answers⟩
  · simp only [conclude, hfailure]
    exact ⟨_, rfl, .failed hfails⟩

/-- A transaction over any database comes to a result, unless its gas is enough for as many refunds
as exceed the refund counter. If a lookup fails, there are no lookups after it and the result is its
outage, wherever it was made; if none fails, the result is a report. -/
theorem outages_surface (x : Executor) (hp : x.transfers.Sound) (task : Task) {gasLimit : Nat}
    (hgas : gasLimit ≤ Amount.max) :
    (∃ T lookups, x.transact task gasLimit = .ok T ∧ x.consulted task gasLimit = .ok lookups ∧
      x.database.Surfaces lookups T.result) ∨
    x.transact task gasLimit = .error .overflow ∧ 2 ^ 63 ≤ Price.mostRefund * (gasLimit + 1) := by
  have hempty : x.database.Answers (ofHardfork x.rules.hardfork).lookups := trivial
  have hloads := loadAll_heeds x.database (x.warm (x.targetOf task)) _ hempty
  have hlooks := loadAll_shows x.database (x.warm (x.targetOf task)) (.ofHardfork x.rules.hardfork)
  simp only [transact, consulted, Ends, Shows] at hloads hlooks ⊢
  cases hload : loadAll x.database (x.warm (x.targetOf task)) (.ofHardfork x.rules.hardfork) with
  | error outage j =>
    rw [hload] at hloads
    exact .inl ⟨_, _, rfl, rfl, .failed hloads⟩
  | ok _ j =>
    simp only [hload] at hloads hlooks ⊢
    have hrefund : j.refund = 0 := hlooks.1.others.2.2
    have hclear : Session.Clear x.database { journal := j } := ⟨rfl, hloads⟩
    have hruns := runTask_conclusive task hp hgas hclear
    cases hrun : x.runTask task gasLimit { journal := j } with
    | error e =>
      obtain ⟨rfl, hoverruns⟩ := hruns.error hrun
      refine .inr ⟨rfl, ?_⟩
      rwa [ceiling, hrefund, Int.natAbs_zero, Nat.zero_add] at hoverruns
    | ok p =>
      obtain ⟨e, t⟩ := p
      obtain ⟨T, hT, hsurfaces⟩ := conclude_surfaces (hruns.ok hrun)
      exact .inl ⟨T, _, hT, rfl, hsurfaces⟩

/-- A database with code that looks at an account which can not be loaded. -/
def patchy : Database :=
  { Database.empty with
    account := fun a =>
      if a = 0xbb then some { nonce := 1, codeHash := 1, code := some ⟨#[0x60, 0xcc, 0x31]⟩ }
      else none
    outage := fun _ l => if l = .account 0xcc then some ⟨"offline"⟩ else none }

/-- Calls that code. -/
def calling : Bytes :=
  ⟨#[0x60, 0, 0x60, 0, 0x60, 0, 0x60, 0, 0x60, 0, 0x60, 0xbb, 0x61, 0xff, 0xff, 0xf1]⟩

def overPatchy : Executor := ⟨{}, .ofHardfork .london, patchy, .balances⟩

/-- The lookup that fails is made in a nested frame. -/
theorem outages_surface_calling :
    ∃ T lookups, overPatchy.transact (.code calling ByteArray.empty) 100000 = .ok T ∧
      overPatchy.consulted (.code calling ByteArray.empty) 100000 = .ok lookups ∧
      patchy.FailsWith ⟨"offline"⟩ lookups ∧ T.result = .error (.database ⟨"offline"⟩) := by
  have hrun : (overPatchy.transact (.code calling ByteArray.empty) 100000).map (·.result.isOk) =
      .ok false := by
    decide +kernel
  obtain ⟨T, hT, haborted⟩ := Except.map_eq_ok hrun
  obtain ⟨T', lookups, hT', hlookups, hsurfaces⟩ | ⟨-, hgas⟩ :=
    outages_surface overPatchy (.inl rfl) (.code calling ByteArray.empty)
      (by decide : 100000 ≤ Amount.max)
  · rw [hT] at hT'
    cases hT'
    obtain ⟨outage, hfails, hresult⟩ := hsurfaces.fails haborted
    have houtage : outage = ⟨"offline"⟩ := by
      cases lookups with
      | nil => cases hfails
      | cons l older =>
        have hl : (if l = .account 0xcc then some ⟨"offline"⟩ else none) = some outage := hfails.1
        split at hl
        · exact (Option.some.inj hl).symm
        · cases hl
    subst houtage
    exact ⟨T, lookups, hT, hlookups, hfails, hresult⟩
  · exact absurd hgas (by decide)

end Executor

end MeteredVM
