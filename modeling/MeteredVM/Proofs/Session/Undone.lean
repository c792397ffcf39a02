import MeteredVM.Proofs.Session.Authority
import MeteredVM.Proofs.Session.Halt
import MeteredVM.Proofs.Store.Unwritten

namespace MeteredVM

open Journal

def Output.address : Output → Option Address
  | call _ => none
  | create _ address => address

/-- Whether a creation that ends with the status has not been counted: its creator can not pay, or has no
further nonce. -/
def Status.uncounted : Status → Bool
  | outOfFunds | nonceOverflow => true
  | _ => false

/-- Whether a task that ends with the outcome has counted a creation. -/
def Task.counts : Task → Outcome → Bool
  | .create _, .halt .outOfFunds | .create _, .halt .nonceOverflow => false
  | .create _, _ => true
  | _, _ => false

theorem Status.uncounted_of_endsFrame {s : Status} (h : s.endsFrame = true) : s.uncounted = false := by
  cases s <;> first | rfl | cases h

theorem Status.isOk_of_failed {s : Status} {outcome : Outcome} (h : s.verdict.outcome? = some outcome)
    (failed : outcome.isSuccess = false) : s.isOk = false := by
  cases s <;> cases h <;> first | rfl | cases failed

theorem Task.counts_create {initCode : Bytes} {s : Status} {outcome : Outcome}
    (h : s.verdict.outcome? = some outcome) : (Task.create initCode).counts outcome = !s.uncounted := by
  cases s <;> cases h <;> rfl

namespace Journal

variable {db : Database} {D : Set (Address × Bytes)} {j k l : Journal} {creator : Address}
  {address : Option Address}

theorem logs_of_reverted (reverted : k.revert j.mark = .ok l) (logs : j.logs = []) : l.logs = [] := by
  unfold revert at reverted
  split at reverted
  · cases reverted
  split at reverted
  · cases reverted
  · obtain ⟨m, -, h⟩ := Except.bind_eq_ok reverted
    cases h
    have hmark : j.mark.logs = 0 := congrArg List.length logs
    rw [hmark, Nat.sub_zero, List.drop_length]

theorem Kempt.of_undeployed (h : j.Kempt db ∅) : j.Kempt db D := by
  intro a x hx
  obtain ⟨hpristine, hcoded, hrooted⟩ := h a x hx
  exact ⟨hpristine, hcoded.imp_right fun ⟨_, deployed, _⟩ => deployed.elim, hrooted⟩

/-- Nothing has happened so far, but that the creator, if there is one, has counted a creation. -/
structure Uneventful (db : Database) (creator : Option Address) (j : Journal) : Prop where
  exact : j.Exact db
  kempt : j.Kempt db ∅
  shows (a : Address) : j.view db a = db.shows creator a
  logs : j.logs = []

theorem Uneventful.genuine {creator : Option Address} (h : j.Uneventful db creator) (a : Address) :
    (j.view db a).created = false := by
  rw [h.shows, Database.shows]
  split <;> exact fresh_created db a

theorem Uneventful.undone {creator : Option Address} (h : j.Uneventful db creator)
    (undone : Executor.Undone (Proceeds db D) j l) : l.Uneventful db creator := by
  obtain rfl | ⟨k, hproceeds, reverted⟩ := undone
  · exact h
  · have hdeeper : j.deeper.Exact db := h.exact.rests (.of_eq rfl rfl)
    obtain ⟨⟨hexact, -⟩, hadvances⟩ := hproceeds hdeeper h.kempt.of_undeployed
    refine ⟨hexact.revert reverted, hadvances.kempt_undeployed reverted h.kempt, fun a => ?_,
      logs_of_reverted reverted h.logs⟩
    rw [hadvances.view reverted h.genuine, h.shows]

theorem Uneventful.closed {R : Journal → Journal → Prop} {creator : Option Address} {status : Status}
    (h : j.Uneventful db creator) (closed : Executor.Closed R (Proceeds db D) j status l)
    (failed : status.isOk = false) : l.Uneventful db creator := by
  obtain undone | ⟨hok, -⟩ := closed
  · exact h.undone undone
  · rw [failed] at hok
    cases hok

/-- A frame is about to be opened, and a creation has been counted for it if it has got an address. -/
theorem Uneventful.begun {x : Executor} (hp : x.transfers.Sound) (hfunded : x.database.wealth < 2 ^ 256)
    (hdb : x.database.Candid) (h : j.Uneventful x.database none)
    (begun : j.Begun x.database creator address k) :
    k.Uneventful x.database (if address.isSome then some creator else none) := by
  obtain ⟨⟨hexact, hkempt⟩, -⟩ :=
    (Executor.proceeds_pact (D := ∅) hp hfunded hdb).of_begun (Set.mem_univ _) begun h.exact h.kempt
  refine ⟨hexact, hkempt, fun a => ?_, begun.uncreated.others.1.trans h.logs⟩
  rw [begun.uncreated.view, viewCounted, h.shows, Database.shows, Database.shows]
  cases address with
  | none => rfl
  | some b =>
    simp only [Option.isSome_some, true_and, if_true, Option.some.injEq]
    rfl

end Journal

namespace Executor

variable {x : Executor} {h : Host Session} {s t : Session} {r : CreateRequest} {task : Task}
  {gasLimit : Nat} {b : Scene} {e : Ended}

theorem Starts.uneventful (hb : x.Starts task gasLimit b) (hdb : x.database.Candid) :
    b.session.journal.Uneventful x.database none where
  exact := (ofHardfork_exact x.database x.rules.hardfork).looks hb.looks
  kempt := hb.kempt hdb
  shows a := by
    rw [hb.looks.view, view_ofHardfork]
    rfl
  logs := hb.looks.others.2.1

section Creates

theorem countCreation_uncounted :
    Ends (x.countCreation r) s (fun why _ => why.address = none ∧
      (why.status ≠ .hostFailure → why.status.uncounted = true)) fun _ _ => True := by
  unfold countCreation
  refine Ends.bind ((Session.require_ends _ _ _).refused ?_) ?_
  · rintro _ t ⟨rfl, -⟩
    exact ⟨rfl, fun hfailed => absurd rfl hfailed⟩
  rintro - s₁ -
  apply Ends.bind .get
  rintro _ _ ⟨rfl, rfl⟩
  split
  · exact .throw ⟨rfl, fun _ => rfl⟩
  apply Ends.bind .get
  rintro _ _ ⟨rfl, rfl⟩
  split
  · apply Ends.bind .modify
    rintro - _ rfl
    exact .pure trivial
  · exact .throw ⟨rfl, fun _ => rfl⟩

theorem createCheckpoint_counted {j : Journal} {a : Address} {status : Status}
    (h : j.createCheckpoint a = .error status) : status.uncounted = false := by
  obtain rfl | rfl := createCheckpoint_eq_error h
  · rfl
  · rfl

/-- A creation that is not opened has got an address if it was counted. -/
theorem openCreate_counted :
    Ends (x.openCreate r) s (fun why _ => why.status ≠ .hostFailure →
      why.address.isSome = !why.status.uncounted) fun _ _ => True := by
  unfold openCreate
  refine Ends.bind (countCreation_uncounted.refused ?_) ?_
  · rintro why t ⟨haddress, huncounted⟩ hreached
    rw [haddress, huncounted hreached]
    rfl
  intro n s₁ _
  refine Ends.bind ((Session.require_ends _ _ _).refused ?_) ?_
  · rintro _ t ⟨rfl, -⟩ hreached
    exact absurd rfl hreached
  rintro - s₂ -
  apply Ends.bind .get
  rintro _ _ ⟨rfl, rfl⟩
  split
  · apply Ends.bind .modify
    rintro - _ rfl
    exact .pure trivial
  · rename_i hrefused
    refine .throw fun _ => ?_
    rw [createCheckpoint_counted hrefused]
    rfl

theorem deposit_counted {gas : Gas} {output : Bytes} {status : Status}
    (h : x.deposit gas output = .error status) : status.uncounted = false := by
  by_contra huncounted
  cases status with
  | outOfFunds =>
    have halts : Status.outOfFunds.verdict = .halt .outOfFunds := rfl
    exact Bool.noConfusion (deposit_halts h halts)
  | nonceOverflow =>
    have halts : Status.nonceOverflow.verdict = .halt .nonceOverflow := rfl
    exact Bool.noConfusion (deposit_halts h halts)
  | _ => exact huncounted rfl

theorem closeCreate_counted {address : Address} {mark : Checkpoint} {f : Frame}
    (hf : f.status.uncounted = false) :
    Yields (x.closeCreate address mark f) s (fun _ => True) fun reply _ =>
      reply.address = some address ∧ reply.status.uncounted = false := by
  apply closeCreate_rule
  · exact fun _ _ => trivial
  · exact fun _ => .any fun _ _ _ _ => ⟨rfl, hf⟩
  · exact fun _ _ _ _ _ _ => .any fun _ _ _ => ⟨rfl, hf⟩
  · exact fun _ _ _ hdeposit => .any fun _ _ _ => ⟨rfl, deposit_counted hdeposit⟩

variable (hp : x.transfers.Sound) (hfunded : x.database.wealth < 2 ^ 256)

include hp hfunded

/-- Only what keeps a creation from being opened keeps it from being endowed. -/
theorem openCreate_of_endowCreate {why : CreateRefusal} (hs : s.journal.Exact x.database)
    (refused : x.endowCreate r s = .ok (.error why, t)) : ∃ u, x.openCreate r s = .error why u := by
  cases hopen : x.openCreate r s with
  | ok p u =>
    obtain ⟨v, hendowed⟩ := endowCreate_of_openCreate hp hfunded hs hopen
    cases refused.symm.trans hendowed
  | error why' u =>
    simp only [endowCreate, bind, StateT.bind, Except.bind, Session.attempt, hopen] at refused
    cases refused
    exact ⟨t, rfl⟩

theorem create_counted (hh : h.Frugal) (hs : s.journal.Exact x.database) :
    Yields (x.create (some h) r) s (fun _ => True) fun reply _ =>
      reply.status ≠ .hostFailure → reply.address.isSome = !reply.status.uncounted := by
  apply Yields.bind .emit
  rintro _ s₁ rfl
  have hany : Yields (x.endowCreate r) (s.noting (.createOpened · r.creator r.gasLimit))
      (fun _ => True) fun endowed t =>
        x.endowCreate r (s.noting (.createOpened · r.creator r.gasLimit)) = .ok (endowed, t) :=
    .any fun _ _ hx => hx
  apply Yields.bind hany
  intro endowed s₂ hs₂
  cases endowed with
  | error why =>
    obtain ⟨u, hrefused⟩ := openCreate_of_endowCreate hp hfunded (s := s.noting _) hs hs₂
    exact .pure (openCreate_counted.error hrefused)
  | ok p =>
    obtain ⟨address, mark⟩ := p
    apply Yields.bind (runCode_frugal hh)
    rintro f s₃ ⟨-, hended⟩
    apply Yields.bind (closeCreate_counted (Status.uncounted_of_endsFrame hended))
    rintro reply s₄ ⟨haddress, hcounted⟩
    apply Yields.bind .emit
    rintro _ s₅ -
    refine .pure fun _ => ?_
    rw [haddress, hcounted]
    rfl

end Creates

/-- A frame that fails is undone, and so is all that was done in it. -/
theorem runTask_undone (hp : x.transfers.Sound) (hfunded : x.database.wealth < 2 ^ 256)
    (hdb : x.database.Candid) (starts : x.Starts task gasLimit b)
    (ran : x.runTask task gasLimit b.session = .ok (e, s)) {outcome : Outcome}
    (ended : e.status.verdict.outcome? = some outcome) (failed : e.status.isOk = false) :
    e.output.address = none ∧
      s.journal.Uneventful x.database
        (if task.counts outcome then some x.environment.tx.caller else none) := by
  have hpact := proceeds_pact (D := Set.univ) hp hfunded hdb
  have hwards := (tended_watch (D := Set.univ) hp hfunded hdb).wards hpact
  have hx (n : Nat) (_ : maxFrames = n + 1) := hwards.abides hpact n
  have hb : x.Tended Set.univ b := starts.tended hdb (Set.subset_univ _)
  have hbefore := starts.uneventful hdb
  obtain ⟨j, -, rfl⟩ := starts
  cases task with
  | code code input =>
    obtain ⟨⟨reply, u⟩, hcall, hends⟩ := Except.bind_eq_ok ran
    cases hends
    exact ⟨rfl, hbefore.closed ((hwards.callCode_closed hpact hx hb).ok hcall) failed⟩
  | call target input =>
    obtain ⟨⟨reply, u⟩, hcall, hends⟩ := Except.bind_eq_ok ran
    cases hends
    obtain ⟨k, hlooks, hclosed⟩ := (hwards.call_closed hpact hx hb).ok hcall
    have hbegun : j.Begun x.database x.environment.tx.caller none k := hlooks
    exact ⟨rfl, (hbefore.begun hp hfunded hdb hbegun).closed hclosed failed⟩
  | create initCode =>
    obtain ⟨⟨reply, u⟩, hcreate, hends⟩ := Except.bind_eq_ok ran
    cases hends
    obtain ⟨k, ⟨-, hbegun⟩, hclosed⟩ := (hwards.create_closed hpact hx hb).ok hcreate
    have hreached : reply.status ≠ .hostFailure := by
      intro hfailed
      change reply.status.verdict.outcome? = _ at ended
      rw [hfailed] at ended
      cases ended
    have haddress : reply.address.isSome = !reply.status.uncounted :=
      (create_counted hp hfunded (x.host_frugal (maxFrames - 1)) hbefore.exact).ok hcreate hreached
    rw [Task.counts_create ended, ← haddress]
    have hk := hbefore.begun hp hfunded hdb hbegun
    exact ⟨if_neg (Bool.not_eq_true _ |>.mpr failed), hk.closed hclosed failed⟩

theorem report_failed {outcome : Outcome} {refund : Int} {logs : List Log} {report : Report}
    (h : x.report e outcome refund logs = .ok report) (failed : e.status.isOk = false) :
    report.refund = 0 ∧ report.logs = logs ∧ (e.output.address = none → report.output.address = none) ∧
      (outcome.isHalt = true → report.output.data = ByteArray.empty) := by
  obtain ⟨used, -, h⟩ := Except.bind_eq_ok h
  cases h
  refine ⟨?_, rfl, fun hnone => ?_, fun halted => ?_⟩
  · simp only [failed, Bool.false_eq_true, if_false]
  · dsimp only
    split
    · cases e.output <;> rfl
    · exact hnone
  · cases outcome with
    | halt why =>
      dsimp only
      cases e.output <;> rfl
    | success | revert => cases halted

variable {d : Store} {T : Transacted} {report : Report} {accounts : Accounts}

/-- A transaction over a store reverts or halts. Then it reports no refund, no log and no created address, and
no output if it halts, and the gas that it has used and what remains are its limit. After the commit of the
accounts that it leaves the store reads as before, but that the nonce of the caller of a creation is one
larger, unless it could not pay or had no further nonce. -/
theorem failure_leaves_nothing (hp : x.transfers.Sound) (runs : x.RunsOn d)
    (ran : x.transact task gasLimit = .ok T) (result : T.result = .ok (report, accounts))
    (failed : report.outcome.isSuccess = false) :
    report.refund = 0 ∧ report.logs = [] ∧ report.output.address = none ∧
      (report.outcome.isHalt = true → report.output.data = ByteArray.empty) ∧
      report.gasLimit = gasLimit ∧ report.gasUsed + report.gasRemaining = gasLimit ∧
      d.ReadsAs (d.commit accounts)
        (if task.counts report.outcome then some x.environment.tx.caller else none) := by
  obtain ⟨hbuilt, hdatabase, hfunded⟩ := runs
  rw [← hdatabase] at hfunded
  have hproper := hbuilt.proper
  have hdb : x.database.Candid := hdatabase ▸ hproper.candid
  obtain ⟨b, e, s, starts, hrun, houtcome, hreport, rfl⟩ := transact_reports ran result
  have hstatus : e.status.isOk = false := Status.isOk_of_failed houtcome failed
  obtain ⟨hnone, hleaves⟩ := runTask_undone hp hfunded hdb starts hrun houtcome hstatus
  obtain ⟨hrefund, hlogs, haddress, houtput⟩ := report_failed hreport hstatus
  have hleft := ((runTask_closes hp task gasLimit).ok hrun).left
  obtain ⟨hlimit, hremaining, hused⟩ := report_gas hleft hreport
  have hkept := hleft.remaining
  rw [hleaves.logs] at hlogs
  obtain ⟨-, hkempt, hshows, -⟩ := hleaves
  rw [hdatabase] at hkempt hshows
  exact ⟨hrefund, hlogs, haddress hnone, houtput, hlimit, by omega,
    Store.readsAs_commit hproper hkempt hshows⟩

/-- Code that writes a slot and the log, and then reverts. -/
def wavering : Bytes :=
  ⟨#[0x60, 1, 0x60, 0, 0x55, 0x60, 0, 0x60, 0, 0xa0, 0x60, 0, 0x60, 0, 0xfd]⟩

/-- A creation runs such code. Nothing is left of it but that its creator has nonce one. -/
theorem failure_leaves_nothing_wavering :
    vacant.transfers.Sound ∧ vacant.RunsOn .empty ∧
      ∃ T report accounts, vacant.transact (.create wavering) 100000 = .ok T ∧
        T.result = .ok (report, accounts) ∧ report.outcome = .revert ∧
        report.refund = 0 ∧ report.logs = [] ∧ report.output.address = none ∧
        report.gasUsed + report.gasRemaining = 100000 ∧
        (∃ i, (Store.empty.commit accounts).toDatabase.account vacant.environment.tx.caller = some i ∧
          i.Same { nonce := 1 }) ∧
        ∀ a, vacant.environment.tx.caller ≠ a →
          (Store.empty.commit accounts).toDatabase.account a = none := by
  have hsound : vacant.transfers.Sound := .inl rfl
  have hruns : vacant.RunsOn .empty := ⟨.empty, rfl, by rw [wealth_empty]; decide⟩
  have hresult : (vacant.transact (.create wavering) 100000).map
      (·.result.toOption.map (·.1.outcome)) = .ok (some .revert) := by
    decide +kernel
  obtain ⟨T, report, accounts, ran, result, reverted⟩ := exists_report hresult
  replace reverted : report.outcome = .revert := reverted
  obtain ⟨hrefund, hlogs, haddress, -, -, hgas, hreads⟩ :=
    failure_leaves_nothing hsound hruns ran result (by rw [reverted]; rfl)
  rw [reverted] at hreads
  obtain ⟨i, hi, hsame⟩ := hreads.creator rfl
  rw [account_empty] at hsame
  refine ⟨hsound, hruns, T, report, accounts, ran, result, reverted, hrefund, hlogs, haddress, hgas,
    ⟨i, hi, hsame⟩, fun a other => ?_⟩
  rw [hreads.account fun hsome => other (Option.some.inj hsome), account_empty]

end Executor

end MeteredVM
