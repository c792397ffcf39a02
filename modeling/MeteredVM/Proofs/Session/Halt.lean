import MeteredVM.Proofs.Session.Failure
import MeteredVM.Proofs.Session.Settlement

namespace MeteredVM

def Halt.refuses : Halt → Bool
  | outOfFunds | createCollision | balanceOverflow | nonceOverflow => true
  | _ => false

theorem Halt.isOk_status (why : Halt) : why.status.isOk = false := by
  cases why with
  | outOfGas kind => cases kind <;> rfl
  | _ => rfl

/-- What a frame leaves of so much gas when it ends with a status: where it halts, all of it if it was not
opened, else nothing. -/
structure Gas.Closes (g : Gas) (gasLimit : Nat) (s : Status) : Prop where
  left : g.Left gasLimit
  halted {why : Halt} (halts : s.verdict = .halt why) :
    g.remaining = if why.refuses then gasLimit else 0

namespace Gas.Closes

variable {g : Gas} {gasLimit : Nat} {s : Status}

theorem of_unhalted (left : g.Left gasLimit) (h : ∀ why, s.verdict ≠ .halt why) :
    g.Closes gasLimit s :=
  ⟨left, fun halts => absurd halts (h _)⟩

theorem refused (h : s.refuses = true) : (Gas.ofLimit gasLimit).Closes gasLimit s where
  left := .ofLimit gasLimit
  halted {why} halts := by
    obtain rfl := Status.verdict_halt halts
    cases why with
    | outOfGas kind => cases kind <;> cases h
    | outOfFunds | createCollision | balanceOverflow | nonceOverflow => rfl
    | _ => cases h

/-- An error takes the gas, and a frame that runs has no other way to halt. -/
theorem of_ended (left : g.Left gasLimit) (ended : s.endsFrame = true)
    (exhausted : s.isError = true → g.remaining = 0) : g.Closes gasLimit s where
  left := left
  halted {why} halts := by
    obtain rfl := Status.verdict_halt halts
    have hopened : why.refuses = false ∧ why.status.isError = true := by
      cases why with
      | outOfGas kind => cases kind <;> exact ⟨rfl, rfl⟩
      | tooDeep | outOfFunds | createCollision | balanceOverflow | nonceOverflow | codeTooLarge
      | codeStartsWithEF => cases ended
      | _ => exact ⟨rfl, rfl⟩
    rw [hopened.1]
    exact exhausted hopened.2

end Gas.Closes

theorem TransferPolicy.Sound.refuses {p : TransferPolicy} (hp : p.Sound) {source target : Address}
    {value : Word} {j k : Journal} {status : Status}
    (h : p.move source target value j = .error status k) : status.refuses = true := by
  obtain rfl | rfl := hp
  · exact Journal.transfer_refuses h
  · cases h

namespace Executor

open Journal

variable {x : Executor} {h : Host Session} {s : Session}

/-- Code runs to an end, and an error takes what gas is left. -/
theorem runCode_closes {i : Invocation} {gasLimit : Nat} (hh : h.Frugal) :
    Yields (runCode h i gasLimit) s (fun _ => True) fun f _ =>
      f.gas.Closes gasLimit f.status := by
  refine (runCode_frugal hh).known.imp ?_
  rintro f t ⟨hrun, hleft, hended⟩
  refine .of_ended hleft hended fun herror => ?_
  obtain ⟨m, hm, hf⟩ := Except.map_eq_ok hrun
  cases hf
  obtain ⟨u, -, rfl⟩ := Except.map_eq_ok hm
  rw [Machine.status_punish] at herror
  simp only [Machine.punish, herror, if_true]
  rfl

theorem move_refuses (hp : x.transfers.Sound) {source target : Address} {value : Word} :
    Ends (Session.move x.transfers source target value) s (fun e _ => e.refuses = true)
      fun _ _ => True := by
  apply Session.move_rule
  exact Ends.iff.mpr ⟨fun _ _ _ => trivial, fun _ _ hmove => hp.refuses hmove⟩

section Calls

variable {r : CallRequest} {code : Bytes}

theorem openCall_refuses (hp : x.transfers.Sound) :
    Yields (x.openCall r) s (fun _ => True) fun opened _ =>
      match opened with
      | .ok _ => True
      | .error status => status.refuses = true := by
  have hpay : ∀ t : Session, Ends (x.payCall r) t (fun e _ => e.refuses = true) fun _ _ => True := by
    intro t
    apply payCall_rule
    · exact fun _ _ => rfl
    · exact fun _ _ _ _ => rfl
    · exact fun _ _ _ _ _ _ => move_refuses hp
  apply openCall_rule
  exact (hpay _).refused fun _ _ hrefused => .any fun _ _ _ => hrefused

theorem callCode_closes (hp : x.transfers.Sound) (hh : h.Frugal) :
    Yields (x.callCode (some h) r code) s (fun _ => True) fun reply _ =>
      reply.gas.Closes r.gasLimit reply.status := by
  apply Yields.bind .emit
  rintro _ s₁ -
  apply Yields.bind (openCall_refuses hp)
  intro opened s₂ hs₂
  cases opened with
  | error status => exact .pure (.refused hs₂)
  | ok mark =>
    dsimp only
    split
    · apply Yields.bind (.any fun _ _ hx => hx)
      rintro _ s₃ -
      exact .pure (.of_unhalted (.ofLimit _) nofun)
    · apply Yields.bind (runCode_closes hh)
      intro f s₃ hf
      apply closeCall_reply.imp
      rintro reply t ⟨hgas, hstatus⟩
      rw [hgas, hstatus]
      exact hf

theorem call_closes (hp : x.transfers.Sound) (hh : h.Frugal) :
    Yields (x.call (some h) r) s (fun _ => True) fun reply _ =>
      reply.gas.Closes r.gasLimit reply.status := by
  apply Yields.bind (.any fun _ _ hx => hx)
  rintro loaded s₁ -
  cases loaded with
  | ok code => exact callCode_closes hp hh
  | error e => exact .pure (.refused rfl)

end Calls

section Creates

variable {r : CreateRequest}

theorem endowCreate_refuses (hp : x.transfers.Sound) :
    Yields (x.endowCreate r) s (fun _ => True) fun endowed _ =>
      match endowed with
      | .ok _ => True
      | .error why => why.status.refuses = true := by
  apply endowCreate_rule openCreate_refuses
  exact fun _ _ _ _ => (move_refuses hp).refused fun _ _ hrefused => .any fun _ _ _ => hrefused

theorem deposit_halts {gas : Gas} {output : Bytes} {status : Status}
    (h : x.deposit gas output = .error status) {why : Halt} (halts : status.verdict = .halt why) :
    why.refuses = false := by
  simp only [deposit] at h
  split at h
  · cases h
    cases halts
    rfl
  split at h
  · cases h
    cases halts
    rfl
  split at h
  · cases h
  split at h
  · cases h
    cases halts
    rfl
  · cases h

theorem closeCreate_closes {address : Address} {mark : Checkpoint} {f : Frame} {gasLimit : Nat}
    (hf : f.gas.Closes gasLimit f.status) :
    Yields (x.closeCreate address mark f) s (fun _ => True) fun reply _ =>
      reply.gas.Closes gasLimit reply.status := by
  apply closeCreate_rule
  · exact fun _ _ => trivial
  · exact fun _ => .any fun _ _ _ _ => hf
  · intro hok output gas code _ hdeposit
    obtain ⟨hremaining, hlimit⟩ := deposit_gas hdeposit
    refine .any fun _ _ _ => .of_unhalted ?_ fun why halts => ?_
    · exact ⟨hlimit.trans hf.left.limit, Nat.le_trans hremaining hf.left.remaining⟩
    · have hstatus : why.status = f.status := Status.verdict_halt halts
      rw [← hstatus, why.isOk_status] at hok
      cases hok
  · intro _ output status hdeposit
    refine .any fun _ _ _ => ⟨⟨hf.left.limit, Nat.zero_le _⟩, fun halts => ?_⟩
    rw [deposit_halts hdeposit halts]
    rfl

theorem create_closes (hp : x.transfers.Sound) (hh : h.Frugal) :
    Yields (x.create (some h) r) s (fun _ => True) fun reply _ =>
      reply.gas.Closes r.gasLimit reply.status := by
  apply Yields.bind .emit
  rintro _ s₁ -
  apply Yields.bind (endowCreate_refuses hp)
  intro endowed s₂ hs₂
  cases endowed with
  | error why => exact .pure (.refused hs₂)
  | ok p =>
    obtain ⟨address, mark⟩ := p
    apply Yields.bind (runCode_closes hh)
    intro f s₃ hf
    apply Yields.bind (closeCreate_closes hf)
    intro reply s₄ hreply
    apply Yields.bind .emit
    rintro _ s₅ -
    exact .pure hreply

end Creates

variable {task : Task} {gasLimit : Nat} {T : Transacted} {report : Report} {accounts : Accounts}

theorem runTask_closes (hp : x.transfers.Sound) (task : Task) (gasLimit : Nat) :
    Yields (x.runTask task gasLimit) s (fun _ => True) fun e _ =>
      e.gas.Closes gasLimit e.status := by
  have hh := x.host_frugal (maxFrames - 1)
  unfold runTask
  cases task with
  | code code input =>
    apply Yields.bind (callCode_closes hp hh)
    intro reply s₁ hreply
    exact .pure hreply
  | call target input =>
    apply Yields.bind (call_closes hp hh)
    intro reply s₁ hreply
    exact .pure hreply
  | create initCode =>
    apply Yields.bind (create_closes hp hh)
    intro reply s₁ hreply
    exact .pure hreply

theorem report_gas {e : Ended} {outcome : Outcome} {refund : Int} {logs : List Log}
    (left : e.gas.Left gasLimit) (h : x.report e outcome refund logs = .ok report) :
    report.gasLimit = gasLimit ∧ report.gasRemaining = e.gas.remaining ∧
      report.gasUsed = gasLimit - e.gas.remaining := by
  simp only [Executor.report, left.spent] at h
  cases h
  exact ⟨left.limit, rfl, rfl⟩

/-- A transaction that halts has used up its gas, unless its outermost frame was refused: for want of funds,
because its address or its nonce was taken, or because the receiver would have too much. Such a transaction
has used no gas. -/
theorem halted_gas (hp : x.transfers.Sound) (ran : x.transact task gasLimit = .ok T)
    (result : T.result = .ok (report, accounts)) {why : Halt} (halted : report.outcome = .halt why) :
    report.gasLimit = gasLimit ∧
      if why.refuses then report.gasRemaining = gasLimit ∧ report.gasUsed = 0
      else report.gasRemaining = 0 ∧ report.gasUsed = gasLimit := by
  obtain ⟨b, e, s, -, hrun, houtcome, hreport, -⟩ := transact_reports ran result
  obtain ⟨hleft, hhalted⟩ := (runTask_closes hp task gasLimit).ok hrun
  rw [halted] at houtcome
  have hverdict : e.status.verdict = .halt why := by
    cases hv : e.status.verdict <;> rw [hv] at houtcome <;> cases houtcome
    rfl
  obtain ⟨hlimit, hremaining, hused⟩ := report_gas hleft hreport
  have hkept := hhalted hverdict
  rw [hremaining, hused, hkept]
  refine ⟨hlimit, ?_⟩
  cases why.refuses with
  | true => exact ⟨rfl, Nat.sub_self gasLimit⟩
  | false => exact ⟨rfl, Nat.sub_zero gasLimit⟩

/-- Code that is not in the rules uses all gas up. -/
theorem halted_gas_undefined :
    ∃ T report accounts, vacant.transact (.code ⟨#[0x0c]⟩ ByteArray.empty) 100 = .ok T ∧
      T.result = .ok (report, accounts) ∧ report.outcome = .halt .undefinedOpcode ∧
        report.gasRemaining = 0 ∧ report.gasUsed = 100 := by
  have hresult : (vacant.transact (.code ⟨#[0x0c]⟩ ByteArray.empty) 100).map (·.result.toOption.map
      (·.1.outcome)) = .ok (some (.halt .undefinedOpcode)) := by
    decide +kernel
  obtain ⟨T, report, accounts, ran, result, halted⟩ := exists_report hresult
  obtain ⟨-, hgas⟩ := halted_gas (.inl rfl) ran result halted
  exact ⟨T, report, accounts, ran, result, halted, hgas⟩

def beyondMeans : Executor :=
  ⟨{ tx := { value := 1 } }, .ofHardfork .london, .empty, .balances⟩

def spent : Executor where
  environment := {}
  rules := .ofHardfork .london
  database := { Database.empty with account := fun _ => some { nonce := Amount.max } }

/-- The gas of refused frames is kept: the first has a payer without funds, the second a creator whose nonce
can not be raised. -/
theorem refused_gas_kept :
    (∃ T report accounts, beyondMeans.transact (.code ⟨#[0]⟩ ByteArray.empty) 100 = .ok T ∧
      T.result = .ok (report, accounts) ∧ report.outcome = .halt .outOfFunds ∧
        report.gasRemaining = 100 ∧ report.gasUsed = 0) ∧
    ∃ T report accounts, spent.transact (.create ⟨#[0]⟩) 100 = .ok T ∧
      T.result = .ok (report, accounts) ∧ report.outcome = .halt .nonceOverflow ∧
        report.gasRemaining = 100 ∧ report.gasUsed = 0 := by
  have hpoor : (beyondMeans.transact (.code ⟨#[0]⟩ ByteArray.empty) 100).map (·.result.toOption.map
      fun p => (p.1.outcome, p.1.gasRemaining, p.1.gasUsed)) =
        .ok (some (.halt .outOfFunds, 100, 0)) := by
    decide +kernel
  have hspent : (spent.transact (.create ⟨#[0]⟩) 100).map (·.result.toOption.map
      fun p => (p.1.outcome, p.1.gasRemaining, p.1.gasUsed)) =
        .ok (some (.halt .nonceOverflow, 100, 0)) := by
    decide +kernel
  obtain ⟨T, report, accounts, ran, result, hreport⟩ := exists_report hpoor
  obtain ⟨T', report', accounts', ran', result', hreport'⟩ := exists_report hspent
  simp only [Prod.mk.injEq] at hreport hreport'
  exact ⟨⟨T, report, accounts, ran, result, hreport⟩,
    ⟨T', report', accounts', ran', result', hreport'⟩⟩

end Executor

end MeteredVM
