import MeteredVM.Proofs.Session.Onward
import MeteredVM.Proofs.Session.Order
import MeteredVM.Proofs.Session.Stipend
import MeteredVM.Proofs.Store.Reflect

namespace MeteredVM

open Journal

namespace Executor

/-- All codes that creations deploy in a transaction, with their addresses, whether or not they are undone
later. -/
def deployed (x : Executor) (task : Task) (gasLimit : Nat) : Set (Address × Bytes) :=
  { p | ∃ b, x.Starts task gasLimit b ∧ p ∈ x.deployments b }

variable {x : Executor} {task : Task} {gasLimit : Nat} {b : Scene} {e : Ended} {s : Session}
  {T : Transacted} {report : Report} {accounts : Accounts}

theorem Starts.deployed (hb : x.Starts task gasLimit b) :
    x.deployed task gasLimit = x.deployments b := by
  obtain ⟨j, hj, rfl⟩ := hb
  refine Set.Subset.antisymm ?_ fun p hp => ⟨_, ⟨j, hj, rfl⟩, hp⟩
  rintro p ⟨_, ⟨k, hk, rfl⟩, hp⟩
  cases hj.symm.trans hk
  exact hp

structure Reports (x : Executor) (e : Ended) (s : Session) (report : Report) (accounts : Accounts) :
    Prop where
  outcome : e.status.verdict.outcome? = some report.outcome
  report : x.report e report.outcome s.journal.refund s.journal.logs.reverse = .ok report
  accounts : accounts = s.journal.accounts

theorem outcome_report {outcome : Outcome} {refund : Int} {logs : List Log}
    (h : x.report e outcome refund logs = .ok report) : report.outcome = outcome := by
  obtain ⟨used, -, h⟩ := Except.bind_eq_ok h
  cases h
  rfl

theorem conclude_reports (h : x.conclude e s = .ok T) (result : T.result = .ok (report, accounts)) :
    x.Reports e s report accounts := by
  simp only [conclude] at h
  split at h
  · cases h
    cases result
  split at h
  · cases h
    cases result
  · rename_i outcome houtcome
    obtain ⟨r, hr, h⟩ := Except.bind_eq_ok h
    cases h
    cases result
    have hsame := outcome_report hr
    subst hsame
    exact ⟨houtcome, hr, rfl⟩

theorem transact_reports (ran : x.transact task gasLimit = .ok T)
    (result : T.result = .ok (report, accounts)) :
    ∃ b e s, x.Starts task gasLimit b ∧ x.runTask task gasLimit b.session = .ok (e, s) ∧
      x.Reports e s report accounts := by
  simp only [transact] at ran
  split at ran
  · cases ran
    cases result
  · rename_i j hload
    obtain ⟨⟨e, s⟩, hrun, hconclude⟩ := Except.bind_eq_ok ran
    exact ⟨⟨maxFrames, x.opening gasLimit task, { journal := j }⟩, e, s, ⟨j, hload, rfl⟩, hrun,
      conclude_reports hconclude result⟩

/-- A transaction with a report of which something is known. -/
theorem exists_report {α : Type} {f : Report × Accounts → α} {v : α}
    (h : (x.transact task gasLimit).map (·.result.toOption.map f) = .ok (some v)) :
    ∃ T report accounts, x.transact task gasLimit = .ok T ∧ T.result = .ok (report, accounts) ∧
      f (report, accounts) = v := by
  obtain ⟨T, ran, hfound⟩ := Except.map_eq_ok h
  obtain ⟨⟨report, accounts⟩, hresult, hv⟩ := Option.map_eq_some_iff.mp hfound
  refine ⟨T, report, accounts, ran, ?_, hv⟩
  cases hT : T.result with
  | error why =>
    rw [hT] at hresult
    cases hresult
  | ok p =>
    rw [hT] at hresult
    cases hresult
    rfl

/-- The database is a store that has come about by the operations, and its balances are together less than
`2 ^ 256`. -/
structure RunsOn (x : Executor) (d : Store) : Prop where
  built : d.Built
  database : x.database = d.toDatabase
  funded : d.toDatabase.wealth < 2 ^ 256

/-- A transaction is committed to the store that it has run on. Then the store has all that the transaction
left of the accounts that it loaded, and what it had before of all others, in whichever order the accounts
are written. An account that is not as it was in the store is touched, so that none is passed over. -/
theorem commit_loses_nothing {d : Store} (hp : x.transfers.Sound) (runs : x.RunsOn d)
    (apart : d.Apart (x.deployed task gasLimit)) (ran : x.transact task gasLimit = .ok T)
    (result : T.result = .ok (report, accounts)) :
    d.Reflects (d.commit accounts) accounts (x.deployed task gasLimit) ∧
      ∀ l : List (Address × Account), l.Perm accounts.toList →
        l.foldl (fun e p => e.commitAccount p.1 p.2) d = d.commit accounts := by
  obtain ⟨hbuilt, hdatabase, hfunded⟩ := runs
  rw [← hdatabase] at hfunded
  have hproper := hbuilt.proper
  have hdb : x.database.Candid := hdatabase ▸ hproper.candid
  obtain ⟨b, e, s, starts, hrun, -, -, rfl⟩ := transact_reports ran result
  rw [starts.deployed] at apart ⊢
  have hpact := proceeds_pact (D := x.deployments b) hp hfunded hdb
  have hwatch := tended_watch (D := x.deployments b) hp hfunded hdb
  have hb : x.Tended (x.deployments b) b := starts.tended hdb subset_rfl
  have hproceeds : Proceeds x.database (x.deployments b) b.session.journal s.journal :=
    hwatch.leaves hpact hb (starts.leaves hrun)
  obtain ⟨⟨-, hkempt⟩, -⟩ := hproceeds hb.exact hb.kempt
  rw [hdatabase] at hkempt
  have hnew : ∀ a code, (a, code) ∈ x.deployments b →
      (fresh d.toDatabase a).info.codeHash = emptyCodeHash := by
    rintro a code ⟨c, hc, hdeploys⟩
    rw [← hdatabase]
    exact (hwatch.reaches hpact hb hc).1.fresh_codeHash hp hfunded hdb hdeploys
  refine ⟨Store.reflects hproper apart hkempt hnew, fun l perm => ?_⟩
  exact Store.foldl_eq_commit apart.injective
    (fun a y loaded code h => Store.filing_mem hproper hkempt loaded h) perm d

/-- A creation with no more gas than a stipend deploys its own code at most. -/
theorem deploys_of_starved {room : Nat} {r : CreateRequest} {p : Address × Bytes}
    (hgas : r.gasLimit ≤ 2300) (hp : p ∈ x.deployments ⟨room, .create r, s⟩) :
    x.Deploys ⟨room, .create r, s⟩ p := by
  obtain ⟨d, hd, hdeploys⟩ := hp
  obtain rfl | ⟨c, hnext, hcd⟩ := Relation.ReflTransGen.cases_head hd
  · exact hdeploys
  have hruled : Scene.Ruled x ⟨room, .create r, s⟩ := fun _ hf => Activity.noConfusion hf
  have hc : x.Starves c := by
    refine ⟨ruled_next hruled hnext, ?_⟩
    cases hnext with
    | payCreate opened => exact trivial
    | openCreate opened => exact hgas
  have hstarved : x.Starves d := by
    clear hd hdeploys
    induction hcd with
    | refl => exact hc
    | tail _ hnext ih => exact ih.next hnext
  cases hdeploys
  exact hstarved.starved.elim

theorem account_empty (a : Address) : Store.empty.toDatabase.account a = none := by
  rw [Store.toDatabase_account]
  exact congrArg (Option.map _) Std.ExtTreeMap.getElem?_empty

theorem wealth_empty : Store.empty.toDatabase.wealth = 0 := by
  refine Finset.sum_eq_zero fun a _ => ?_
  rw [account_empty, Option.elim_none]

def vacant : Executor := { barren with database := Store.empty.toDatabase }

/-- A byte of code is deployed, and found after the commit. -/
theorem commit_loses_nothing_yielding :
    vacant.transfers.Sound ∧ vacant.RunsOn .empty ∧
      Store.empty.Apart (vacant.deployed (.create yielding) 2300) ∧
      ∃ T report accounts, vacant.transact (.create yielding) 2300 = .ok T ∧
        T.result = .ok (report, accounts) ∧
        Store.empty.Reflects (Store.empty.commit accounts) accounts
          (vacant.deployed (.create yielding) 2300) ∧
        (Store.empty.commit accounts).toDatabase.code (codeHash ⟨#[0]⟩) = ⟨#[0]⟩ := by
  have hsound : vacant.transfers.Sound := .inl rfl
  have hruns : vacant.RunsOn .empty := ⟨.empty, rfl, by rw [wealth_empty]; decide⟩
  let j := leftBy (loadAll vacant.database (vacant.warm none)) (.ofHardfork .london)
  let r : CreateRequest :=
    ⟨vacant.environment.tx.caller, none, vacant.environment.tx.value, yielding, 2300⟩
  let b : Scene := ⟨maxFrames, .create r, { journal := j }⟩
  have starts : vacant.Starts (.create yielding) 2300 b := ⟨j, rfl, rfl⟩
  have hcreate : (vacant.create (vacant.hostWithin maxFrames) r b.session).map
      (·.1.output.data) = .ok #[0] := by
    decide +kernel
  have hbyte : ∀ a code, (a, code) ∈ vacant.deployed (.create yielding) 2300 → code = ⟨#[0]⟩ := by
    intro a code h
    rw [starts.deployed] at h
    cases deploys_of_starved (Nat.le_refl 2300) h with
    | intro replied =>
      rw [replied] at hcreate
      exact ByteArray.ext (Except.ok.inj hcreate)
  have hdistinct : codeHash ⟨#[0]⟩ ≠ codeHash ByteArray.empty ∧ codeHash ⟨#[0]⟩ ≠ 0 := by
    decide +kernel
  have hmem : ∀ code ∈ Store.empty.codesWith (vacant.deployed (.create yielding) 2300),
      code = ⟨#[0]⟩ ∨ code = ByteArray.empty := by
    rintro code (⟨hash, stored⟩ | ⟨a, h⟩ | rfl)
    · cases (Std.ExtTreeMap.getElem?_empty (a := hash)).symm.trans stored
    · exact .inl (hbyte a code h)
    · exact .inr rfl
  have hapart : Store.empty.Apart (vacant.deployed (.create yielding) 2300) := by
    refine ⟨fun code h code' h' hsame => ?_, fun {a code} h => ?_⟩
    · obtain rfl | rfl := hmem code h <;> obtain rfl | rfl := hmem code' h'
      · rfl
      · exact absurd hsame hdistinct.1
      · exact absurd hsame.symm hdistinct.1
      · rfl
    · rw [hbyte a code h]
      exact hdistinct.2
  have hresult : (vacant.transact (.create yielding) 2300).map (·.result.toOption.map fun p =>
      ((Store.empty.commit p.2).toDatabase.code (codeHash ⟨#[0]⟩)).data) = .ok (some #[0]) := by
    decide +kernel
  obtain ⟨T, report, accounts, ran, result, hfound⟩ := exists_report hresult
  obtain ⟨hreflects, -⟩ := commit_loses_nothing hsound hruns hapart ran result
  exact ⟨hsound, hruns, hapart, T, report, accounts, ran, result, hreflects, ByteArray.ext hfound⟩

end Executor

end MeteredVM
