import MeteredVM.Proofs.Session.Coverage
import MeteredVM.Proofs.Session.Halt
import MeteredVM.Proofs.Session.Thrift

namespace MeteredVM

open Journal Price

namespace Session

variable {ε α β : Type} {s : Session}

theorem Evenly.bind {y : EStateM ε Session α} {k : α → EStateM ε Session β} (hy : Evenly y s)
    (hk : ∀ a t, Evenly (k a) t) : Evenly (y >>= k) s := by
  refine Ends.bind hy fun a t ht => ?_
  exact ((hk a t).refused fun _ _ hu => ht.trans hu).imp fun _ _ hu => ht.trans hu

theorem require_evenly (db : Database) (a : Address) (refusal : ε) :
    Evenly (require db a refusal) s := by
  apply require_rule
  exact load_evenly (Even.load (loadAccount_shows a _) (loadAccount_accesses db a _))

theorem move_evenly {p : TransferPolicy} (quiet : p.Quiet) (source target : Address) (value : Word) :
    Evenly (move p source target value) s := by
  apply move_rule
  exact Ends.of_left (P := s.journal.Even) (.of_calm (quiet source target value s.journal))

end Session

namespace Executor

open Session

variable {x : Executor} {tier : NetTier} {s : Session} {j : Journal}

section Opening

theorem payCall_evenly (quiet : x.transfers.Quiet) {r : CallRequest} : Evenly (x.payCall r) s := by
  refine .bind (require_evenly _ _ _) fun _ s₁ => ?_
  refine .bind (require_evenly _ _ _) fun _ s₂ => ?_
  refine .bind (.of_calm (.touch s₂.journal r.target)) fun _ s₃ => ?_
  apply Ends.bind .get
  rintro _ _ ⟨rfl, rfl⟩
  split
  · exact .throw (.refl _)
  · exact move_evenly quiet _ _ _

theorem openCall_even (quiet : x.transfers.Quiet) {r : CallRequest} :
    Yields (x.openCall r) s (fun _ => True) fun opened t =>
      match opened with
      | .ok mark => mark = s.journal.mark ∧ s.journal.deeper.Even t.journal
      | .error _ => s.journal.Even t.journal := by
  apply openCall_rule
  refine ((payCall_evenly quiet).refused fun _ t ht => ?_).imp fun _ _ ht => ⟨rfl, ht⟩
  exact Session.revert_any.imp fun _ _ hu => even_revert ht.retains hu

theorem countCreation_evenly {r : CreateRequest} : Evenly (x.countCreation r) s := by
  refine .bind (require_evenly _ _ _) fun _ s₁ => ?_
  apply Ends.bind .get
  rintro _ _ ⟨rfl, rfl⟩
  split
  · exact .throw (.refl _)
  apply Ends.bind .get
  rintro _ _ ⟨rfl, rfl⟩
  split
  · rename_i hraise
    apply Ends.bind .modify
    rintro - _ rfl
    exact .pure (.of_calm (.raiseNonce hraise))
  · exact .throw (.refl _)

theorem openCreate_even {r : CreateRequest} :
    Ends (x.openCreate r) s (fun _ t => s.journal.Even t.journal) fun p t =>
      ∃ k, s.journal.Even k ∧ p.2 = k.mark ∧ t.journal = k.opened p.1 := by
  refine Ends.bind countCreation_evenly fun n s₁ h₁ => ?_
  refine Ends.bind ((require_evenly _ _ _).refused fun _ _ h => h₁.trans h) fun _ s₂ h₂ => ?_
  apply Ends.bind .get
  rintro _ _ ⟨rfl, rfl⟩
  split
  · rename_i mark k hopen
    apply Ends.bind .modify
    rintro - _ rfl
    obtain ⟨rfl, rfl, -⟩ := createCheckpoint_eq_ok hopen
    exact .pure ⟨_, h₁.trans h₂, rfl, rfl⟩
  · exact .throw (h₁.trans h₂)

theorem endowCreate_even (quiet : x.transfers.Quiet) {r : CreateRequest} :
    Yields (x.endowCreate r) s (fun _ => True) fun endowed t =>
      match endowed with
      | .ok (_, mark) => ∃ k, s.journal.Even k ∧ mark = k.mark ∧ k.deeper.Even t.journal
      | .error _ => s.journal.Even t.journal := by
  apply endowCreate_rule openCreate_even
  rintro ⟨address, mark⟩ t - ⟨k, hk, rfl, ht⟩
  have hopened : k.deeper.Even t.journal := ht ▸ even_opened k address
  refine ((move_evenly quiet _ _ _).refused fun _ u hu => ?_).imp
    fun _ u hu => ⟨k, hk, rfl, hopened.trans hu⟩
  exact Session.revert_any.imp fun _ _ hv => hk.trans (even_revert (hopened.trans hu).retains hv)

end Opening

/-- What code leaves that has run with so much gas. What it has made the journal worth more it has paid
for, unless it is undone. -/
structure Repays (x : Executor) (tier : NetTier) (j : Journal) (given : Nat) (f : Frame)
    (t : Session) : Prop where
  gas : f.gas.remaining ≤ given
  retains : Facet.slots.Retains j t.journal
  stake (success : f.status.isOk = true) :
    x.stake tier t.journal f.gas.remaining ≤ x.stake tier j given

theorem Repays.committed {f : Frame} {given left : Nat} {i k : Journal} (h : x.Repays tier i given f s)
    (hi : j.deeper.Even i) (success : f.status.isOk = true) (hgas : left ≤ f.gas.remaining)
    (committed : s.journal.commit = .ok k) : x.stake tier k left ≤ x.stake tier j given := by
  have hcommit : x.stake tier k left ≤ x.stake tier s.journal f.gas.remaining :=
    stake_le_of_even (.of_calm (.commit committed)) hgas
  have hdeeper : x.stake tier i given ≤ x.stake tier j given :=
    stake_le_of_even ((Even.of_calm (.deeper j)).trans hi) (Nat.le_refl given)
  exact (hcommit.trans (h.stake success)).trans hdeeper

theorem Repays.reverted {f : Frame} {given left : Nat} {i k : Journal} (h : x.Repays tier i given f s)
    (hi : j.deeper.Even i) (hgas : left ≤ given) (reverted : s.journal.revert j.mark = .ok k) :
    x.stake tier k left ≤ x.stake tier j given :=
  stake_le_of_even (even_revert (hi.retains.trans h.retains) reverted) hgas

section Calls

variable {r : CallRequest}

theorem closeCall_stake {f : Frame} {given : Nat} {i : Journal} (h : x.Repays tier i given f s)
    (hi : j.deeper.Even i) :
    Yields (closeCall j.mark f) s (fun _ => True) fun reply t =>
      x.stake tier t.journal reply.gas.remaining ≤ x.stake tier j given := by
  apply closeCall_rule
  · exact fun _ _ => trivial
  · exact fun success => Session.commit_any.imp fun _ _ ht _ =>
      h.committed hi success (Nat.le_refl _) ht
  · exact fun _ => Session.revert_any.imp fun _ _ ht _ => h.reverted hi h.gas ht

theorem callCode_stake {inner : Option (Host Session)} {code : Bytes} (quiet : x.transfers.Quiet)
    (hrun : ∀ h ∈ inner, ∀ mark t,
      x.openCall r (s.noting (.callOpened · r.codeAddress r.gasLimit)) = .ok (.ok mark, t) →
      code.size ≠ 0 → Yields (runCode h (x.callInvocation r code) r.gasLimit) t (fun _ => True)
        (x.Repays tier t.journal r.gasLimit)) :
    Yields (x.callCode inner r code) s (fun _ => True) fun reply t =>
      x.stake tier t.journal reply.gas.remaining ≤ x.stake tier s.journal r.gasLimit := by
  apply Yields.bind .emit
  rintro _ _ rfl
  cases inner with
  | none => exact .pure (Int.le_refl _)
  | some h =>
    apply Yields.bind (openCall_even quiet).known
    rintro opened s₁ ⟨hs, hs₁⟩
    cases opened with
    | error status => exact .pure (stake_le_of_even hs₁ (Nat.le_refl _))
    | ok mark =>
      obtain ⟨rfl, hs₁⟩ := hs₁
      dsimp only
      split
      · apply Yields.bind Session.commit_any
        intro _ s₂ hs₂
        have heven := ((Even.of_calm (.deeper s.journal)).trans hs₁).trans (.of_calm (.commit hs₂))
        exact .pure (stake_le_of_even heven (Nat.le_refl _))
      · rename_i hcode
        apply Yields.bind (hrun h rfl _ s₁ hs hcode)
        intro f s₂ hrepays
        exact closeCall_stake hrepays hs₁

theorem call_stake {inner : Option (Host Session)}
    (hcode : ∀ code t, Session.load (Journal.loadCode x.database r.codeAddress) s = .ok code t →
      Yields (x.callCode inner r code.value) t (fun _ => True) fun reply u =>
        x.stake tier u.journal reply.gas.remaining ≤ x.stake tier t.journal r.gasLimit) :
    Yields (x.call inner r) s (fun _ => True) fun reply t =>
      x.stake tier t.journal reply.gas.remaining ≤ x.stake tier s.journal r.gasLimit := by
  have hload : Evenly (load (Journal.loadCode x.database r.codeAddress)) s :=
    load_evenly (Even.load (loadCode_shows _ _) (loadCode_accesses _ _ _))
  apply Yields.bind (.attempt hload)
  intro loaded s₁ hs₁
  cases loaded with
  | error e => exact .pure (stake_le_of_even hs₁ (Nat.le_refl _))
  | ok code =>
    obtain ⟨hs, heven⟩ := hs₁
    refine (hcode code s₁ hs).imp fun reply t ht => ht.trans ?_
    exact stake_le_of_even heven (Nat.le_refl _)

end Calls

section Creates

variable {r : CreateRequest}

theorem closeCreate_stake {address : Address} {f : Frame} {given : Nat} {i : Journal}
    (h : x.Repays tier i given f s) (hi : j.deeper.Even i) :
    Yields (x.closeCreate address j.mark f) s (fun _ => True) fun reply t =>
      x.stake tier t.journal reply.gas.remaining ≤ x.stake tier j given := by
  apply closeCreate_rule
  · exact fun _ _ => trivial
  · exact fun _ => Session.revert_any.imp fun _ _ ht _ => h.reverted hi h.gas ht
  · intro success output gas code _ hdeposit
    refine Session.commit_any.imp fun _ t ht => ?_
    have hcode : x.stake tier (t.journal.setCode address code) gas.remaining ≤
        x.stake tier t.journal gas.remaining :=
      stake_le_of_even (.of_calm (.setCode _ address code)) (Nat.le_refl _)
    exact hcode.trans (h.committed hi success (deposit_gas hdeposit).1 ht)
  · exact fun _ _ _ _ => Session.revert_any.imp fun _ _ ht => h.reverted hi (Nat.zero_le _) ht

theorem create_stake {inner : Option (Host Session)} (quiet : x.transfers.Quiet)
    (hrun : ∀ h ∈ inner, ∀ address mark t,
      x.endowCreate r (s.noting (.createOpened · r.creator r.gasLimit)) =
        .ok (.ok (address, mark), t) →
      Yields (runCode h (x.createInvocation r address) r.gasLimit) t (fun _ => True)
        (x.Repays tier t.journal r.gasLimit)) :
    Yields (x.create inner r) s (fun _ => True) fun reply t =>
      x.stake tier t.journal reply.gas.remaining ≤ x.stake tier s.journal r.gasLimit := by
  apply Yields.bind .emit
  rintro _ _ rfl
  cases inner with
  | none => exact .pure (Int.le_refl _)
  | some h =>
    apply Yields.bind (endowCreate_even quiet).known
    rintro endowed s₁ ⟨hs, hs₁⟩
    cases endowed with
    | error why => exact .pure (stake_le_of_even hs₁ (Nat.le_refl _))
    | ok p =>
      obtain ⟨address, mark⟩ := p
      obtain ⟨k, hk, rfl, hs₁⟩ := hs₁
      apply Yields.bind (hrun h rfl address _ s₁ hs)
      intro f s₂ hrepays
      apply Yields.bind (closeCreate_stake hrepays hs₁)
      intro reply s₃ hs₃
      apply Yields.bind .emit
      rintro _ _ rfl
      exact .pure (hs₃.trans (stake_le_of_even hk (Nat.le_refl _)))

end Creates

/-- A point from which accounts of `C` only are created, and where all initial values are those of the
database. -/
structure Sane (x : Executor) (C : Set Address) (c : Scene) : Prop where
  governed : x.Governed C c
  faithful : c.session.journal.Faithful x.database

structure Thrifty (x : Executor) (tier : NetTier) (C : Set Address) (room : Nat) : Prop where
  call {r : CallRequest} {s : Session} (h : x.Sane C ⟨room, .call r, s⟩) :
    Yields (x.call (x.hostWithin room) r) s (fun _ => True) fun reply t =>
      x.stake tier t.journal reply.gas.remaining ≤ x.stake tier s.journal r.gasLimit
  callCode {r : CallRequest} {code : Bytes} {s : Session} (h : x.Sane C ⟨room, .callCode r code, s⟩) :
    Yields (x.callCode (x.hostWithin room) r code) s (fun _ => True) fun reply t =>
      x.stake tier t.journal reply.gas.remaining ≤ x.stake tier s.journal r.gasLimit
  create {r : CreateRequest} {s : Session} (h : x.Sane C ⟨room, .create r, s⟩) :
    Yields (x.create (x.hostWithin room) r) s (fun _ => True) fun reply t =>
      x.stake tier t.journal reply.gas.remaining ≤ x.stake tier s.journal r.gasLimit

section Frames

variable {C : Set Address} {room : Nat} {b c d : Scene} (metered : netTier? x.rules = some tier)
  (quiet : x.transfers.Quiet) (empty : ∀ a ∈ C, ∀ key, x.database.slot a key = 0)

include metered quiet empty

theorem Sane.next (h : x.Sane C c) (hnext : x.Next c d) : x.Sane C d := by
  have law := refund_law metered quiet empty
  have hkept := law.lapses (law.next hnext h.governed)
  exact ⟨h.governed.next hnext, hkept.faithful h.faithful⟩

theorem Thrifty.thrives (hx : x.Thrifty tier C room) {f : Frame} (h : x.Sane C ⟨room, .step f, s⟩)
    (running : f.status = .running) : x.Thrives tier (x.hostWithin room) ⟨f, s⟩ := by
  intro r t asking
  have hasked := h.next metered quiet empty (.nest running asking)
  cases r with
  | call r into => exact fun reply w ran => (hx.call hasked).ok ran
  | create r => exact fun reply w ran => (hx.create hasked).ok ran

variable (small : x.rules.has .eip3529 = true)

include small

theorem Thrifty.runCode_repays (hx : x.Thrifty tier C room) {i : Invocation} {gasLimit : Nat}
    (h : x.Sane C ⟨room, .step (.start i gasLimit), s⟩) :
    Yields (runCode (x.host (x.hostWithin room)) i gasLimit) s (fun _ => True)
      (x.Repays tier s.journal gasLimit) := by
  let I : Machine Session → Prop := fun m => x.Sane C ⟨room, .step m.frame, m.world⟩ ∧
    (m.frame.status.isOk = true →
      x.stake tier m.world.journal m.frame.gas.remaining ≤ x.stake tier s.journal gasLimit)
  have hI : ∀ m n, m.frame.status = .running → I m →
      m.step (x.host (x.hostWithin room)) = .ok n → I n := by
    rintro m n running ⟨hm, hpaid⟩ stepped
    refine ⟨hm.next metered quiet empty (.step running stepped), fun success => ?_⟩
    have hthrives := hx.thrives metered quiet empty hm running
    obtain hfailed | hless :=
      step_stake metered small (hm.governed.2 _ rfl) hm.faithful hthrives stepped
    · exact absurd (success.symm.trans hfailed) Bool.noConfusion
    · exact hless.trans (hpaid (by rw [running]; rfl))
  have law := refund_law metered quiet empty
  have hran := law.guards.wards.runCode_yields law.charter.pact (law.abides room) h.governed
  refine (hran.and (runCode_frugal (x.host_frugal room))).known.imp ?_
  rintro f t ⟨hrun, ⟨hrecoverable, -⟩, hleft, -⟩
  obtain ⟨m, hm, hft⟩ := Except.map_eq_ok hrun
  obtain ⟨u, hu, rfl⟩ := Except.map_eq_ok hm
  cases hft
  have hend : I u := Machine.runFor_invariant hI ⟨h, fun _ => Int.le_refl _⟩ hu
  refine ⟨hleft.remaining, hrecoverable.slots, fun success => ?_⟩
  rw [Machine.status_punish] at success
  have hless := hend.2 success
  have hpunished := u.punish_gas
  rw [Machine.world_punish]
  unfold stake at hless ⊢
  omega

theorem thrifty_of (hx : ∀ n, room = n + 1 → x.Thrifty tier C n) : x.Thrifty tier C room := by
  have called : ∀ {r : CallRequest} {code : Bytes} {s : Session},
      x.Sane C ⟨room, .callCode r code, s⟩ →
        Yields (x.callCode (x.hostWithin room) r code) s (fun _ => True) fun reply t =>
          x.stake tier t.journal reply.gas.remaining ≤ x.stake tier s.journal r.gasLimit := by
    intro r code s h
    cases room with
    | zero => exact callCode_stake quiet nofun
    | succ room =>
      refine callCode_stake quiet ?_
      rintro _ ⟨⟩ mark t opened nonempty
      exact (hx room rfl).runCode_repays metered quiet empty small
        (h.next metered quiet empty (.openCall opened nonempty))
  refine ⟨fun h => ?_, called, fun h => ?_⟩
  · exact call_stake fun code t loaded => called (h.next metered quiet empty (.loadCode loaded))
  · cases room with
    | zero => exact create_stake quiet nofun
    | succ room =>
      refine create_stake quiet ?_
      rintro _ ⟨⟩ address mark t opened
      exact (hx room rfl).runCode_repays metered quiet empty small
        (h.next metered quiet empty (.openCreate opened))

theorem thrifty (room : Nat) : x.Thrifty tier C room := by
  induction room with
  | zero => exact thrifty_of metered quiet empty small nofun
  | succ room ih =>
    apply thrifty_of metered quiet empty small
    rintro n hn
    cases hn
    exact ih

end Frames

theorem runTask_left {task : Task} {gasLimit : Nat} {e : Ended} {t : Session}
    (h : x.runTask task gasLimit s = .ok (e, t)) : e.gas.Left gasLimit := by
  have hinner : ∀ h ∈ x.hostWithin maxFrames, h.Frugal := fun _ hh => x.hostWithin_frugal hh
  cases task with
  | code code input =>
    obtain ⟨⟨reply, u⟩, hcall, hu⟩ := Except.bind_eq_ok h
    cases hu
    exact (callCode_frugal hinner).ok hcall
  | call target input =>
    obtain ⟨⟨reply, u⟩, hcall, hu⟩ := Except.bind_eq_ok h
    cases hu
    exact (call_frugal hinner).ok hcall
  | create initCode =>
    obtain ⟨⟨reply, u⟩, hcreate, hu⟩ := Except.bind_eq_ok h
    cases hu
    exact (create_frugal hinner).ok hcreate

theorem Starts.runTask_stake {C : Set Address} {task : Task} {gasLimit : Nat} {b : Scene} {e : Ended}
    {t : Session} (starts : x.Starts task gasLimit b) (hx : x.Thrifty tier C maxFrames)
    (hb : x.Sane C b) (h : x.runTask task gasLimit b.session = .ok (e, t)) :
    x.stake tier t.journal e.gas.remaining ≤ x.stake tier b.session.journal gasLimit := by
  obtain ⟨j, -, rfl⟩ := starts
  cases task with
  | code code input =>
    obtain ⟨⟨reply, u⟩, hcall, hu⟩ := Except.bind_eq_ok h
    cases hu
    exact (hx.callCode hb).ok hcall
  | call target input =>
    obtain ⟨⟨reply, u⟩, hcall, hu⟩ := Except.bind_eq_ok h
    cases hu
    exact (hx.call hb).ok hcall
  | create initCode =>
    obtain ⟨⟨reply, u⟩, hcreate, hu⟩ := Except.bind_eq_ok h
    cases hu
    exact (hx.create hb).ok hcreate

theorem loadAll_even (db : Database) (accounts : List Address) (j : Journal) :
    Ends (loadAll db accounts) j (fun _ k => j.Even k) fun _ k => j.Even k := by
  induction accounts generalizing j with
  | nil => exact .pure (.refl j)
  | cons a rest ih =>
    refine Ends.bind (Even.load (loadAccount_shows a j) (loadAccount_accesses db a j)) ?_
    intro found k hk
    exact ((ih k).refused fun _ _ hl => hk.trans hl).imp fun _ _ hl => hk.trans hl

theorem Starts.worth {task : Task} {gasLimit : Nat} {b : Scene} (h : x.Starts task gasLimit b) :
    b.session.journal.worth x.rules tier x.database = 0 := by
  obtain ⟨j, hj, rfl⟩ := h
  have heven := (loadAll_even x.database _ (.ofHardfork x.rules.hardfork)).ok hj
  rw [heven.worth, worth_ofHardfork]

/-- With the smaller refunds of net metering the counter stays below the gas that was used. -/
theorem Starts.refund_le_used {task : Task} {gasLimit : Nat} {b : Scene} {e : Ended} {t : Session}
    (starts : x.Starts task gasLimit b) (metered : netTier? x.rules = some tier)
    (small : x.rules.has .eip3529 = true) (quiet : x.transfers.Quiet)
    (empty : ∀ a ∈ x.founded b, ∀ key, x.database.slot a key = 0)
    (h : x.runTask task gasLimit b.session = .ok (e, t)) :
    t.journal.refund + e.gas.remaining ≤ gasLimit := by
  have hfaithful : b.session.journal.Faithful x.database :=
    (ofHardfork_faithful x.database x.rules.hardfork).looks starts.looks
  have hb : x.Sane (x.founded b) b := ⟨⟨subset_rfl, starts.ruled⟩, hfaithful⟩
  have hspent := starts.runTask_stake (thrifty metered quiet empty small maxFrames) hb h
  have hworth : b.session.journal.worth x.rules tier x.database = 0 := starts.worth
  have hrefund : (t.journal.refund : Int) ≤ t.journal.worth x.rules tier x.database :=
    refund_le_worth metered small t.journal
  unfold stake at hspent
  omega

end Executor

/-- So much is paid back of the gas that was used, and the rest has been spent. -/
structure Report.Pays (r : Report) (paid : Nat) : Prop where
  capped : r.cappedRefund = .ok paid
  within : paid ≤ r.gasUsed
  spent : r.gasSpent = .ok (r.gasUsed - paid)

theorem Report.gasSpent_of_capped {r : Report} {paid : Nat} (capped : r.cappedRefund = .ok paid) :
    r.gasSpent = Amount.sub r.gasUsed paid := by
  rw [Report.gasSpent, capped]
  rfl

theorem Report.Pays.of_le {r : Report} {paid : Nat} (capped : r.cappedRefund = .ok paid)
    (within : paid ≤ r.gasUsed) : r.Pays paid :=
  ⟨capped, within, (gasSpent_of_capped capped).trans (if_pos within)⟩

theorem Report.gasSpent_of_lt {r : Report} {paid : Nat} (capped : r.cappedRefund = .ok paid)
    (beyond : r.gasUsed < paid) : r.gasSpent = .error .overflow :=
  (gasSpent_of_capped capped).trans (if_neg (Nat.not_le_of_lt beyond))

namespace Executor

variable {x : Executor} {task : Task} {gasLimit : Nat} {T : Transacted} {report : Report}
  {accounts : Accounts}

theorem report_refunds {e : Ended} {outcome : Outcome} {refund : Int} {logs : List Log}
    (h : x.report e outcome refund logs = .ok report) :
    report.refund = (if e.status.isOk then refund.toNat else 0) ∧ report.refundQuotient =
      if x.environment.chain.uncappedRefund then none else some x.rules.refundQuotient := by
  obtain ⟨used, -, h⟩ := Except.bind_eq_ok h
  cases h
  exact ⟨rfl, rfl⟩

/-- Net metering is in force with the smaller refunds, and no account is created that has storage in the
database. -/
structure Sparing (x : Executor) (task : Task) (gasLimit : Nat) : Prop where
  metered : (netTier? x.rules).isSome
  small : x.rules.has .eip3529 = true
  quiet : x.transfers.Quiet
  empty {b : Scene} {a : Address} (starts : x.Starts task gasLimit b) (founded : a ∈ x.founded b)
    (key : Word) : x.database.slot a key = 0

theorem Sparing.refund_le_used (h : x.Sparing task gasLimit)
    (ran : x.transact task gasLimit = .ok T) (result : T.result = .ok (report, accounts)) :
    report.refund ≤ report.gasUsed := by
  obtain ⟨b, e, s, starts, hrun, -, hreport, -⟩ := transact_reports ran result
  obtain ⟨tier, metered⟩ := Option.isSome_iff_exists.mp h.metered
  have hbound := starts.refund_le_used metered h.small h.quiet (fun a ha => h.empty starts ha) hrun
  have hleft := runTask_left hrun
  have hused := (report_gas hleft hreport).2.2
  have hrefund : report.refund ≤ s.journal.refund.toNat := by
    rw [(report_refunds hreport).1]
    split
    · exact Nat.le_refl _
    · exact Nat.zero_le _
  have hremaining := hleft.remaining
  omega

/-- No more gas is paid back than a transaction has used, so that what it has spent can be told. Under the
cap that is a part of the gas used that depends on the rules. Without it the refund counter is paid back as
it is, which stays within the gas used where clearing a slot costs more than it pays back. -/
theorem refund_within_gas (ran : x.transact task gasLimit = .ok T)
    (result : T.result = .ok (report, accounts)) :
    (x.environment.chain.uncappedRefund = false →
      report.Pays (min report.refund (report.gasUsed / x.rules.refundQuotient))) ∧
    (x.environment.chain.uncappedRefund = true → report.cappedRefund = .ok report.refund ∧
      (x.Sparing task gasLimit → report.Pays report.refund)) := by
  obtain ⟨b, e, s, -, -, -, hreport, -⟩ := transact_reports ran result
  have hquotient := (report_refunds hreport).2
  refine ⟨fun capped => ?_, fun uncapped => ?_⟩
  · rw [capped] at hquotient
    refine .of_le ?_ ((Nat.min_le_right _ _).trans (Nat.div_le_self _ _))
    have hpositive : x.rules.refundQuotient ≠ 0 := by
      unfold Rules.refundQuotient
      split <;> decide
    obtain ⟨q, hq⟩ := Nat.exists_eq_succ_of_ne_zero hpositive
    simp only [Report.cappedRefund, hquotient, hq]
    rfl
  · rw [uncapped] at hquotient
    have hcounter : report.cappedRefund = .ok report.refund := by
      simp only [Report.cappedRefund, hquotient]
      rfl
    exact ⟨hcounter, fun sparing => .of_le hcounter (sparing.refund_le_used ran result)⟩

def uncapped (x : Executor) : Executor :=
  { x with environment := { x.environment with
      chain := { x.environment.chain with uncappedRefund := true } } }

/-- With the cap a fifth is paid back of the gas that was used to set a slot and to clear it again. Without
it nearly all is. -/
theorem refund_within_gas_restoring :
    (∃ T report accounts, barren.transact (.code restoring ByteArray.empty) 100000 = .ok T ∧
      T.result = .ok (report, accounts) ∧ report.gasUsed = 22212 ∧ report.Pays 4442) ∧
    ∃ T report accounts, barren.uncapped.transact (.code restoring ByteArray.empty) 100000 = .ok T ∧
      T.result = .ok (report, accounts) ∧ report.gasUsed = 22212 ∧ report.Pays 19900 := by
  have hcapped : (barren.transact (.code restoring ByteArray.empty) 100000).map
      (·.result.toOption.map fun p => (p.1.gasUsed, p.1.refund)) = .ok (some (22212, 19900)) := by
    decide +kernel
  have huncapped : (barren.uncapped.transact (.code restoring ByteArray.empty) 100000).map
      (·.result.toOption.map fun p => (p.1.gasUsed, p.1.refund)) = .ok (some (22212, 19900)) := by
    decide +kernel
  obtain ⟨T, report, accounts, ran, result, hreport⟩ := exists_report hcapped
  obtain ⟨T', report', accounts', ran', result', hreport'⟩ := exists_report huncapped
  obtain ⟨hused, hrefund⟩ := Prod.mk.inj hreport
  obtain ⟨hused', hrefund'⟩ := Prod.mk.inj hreport'
  have hpays := (refund_within_gas ran result).1 rfl
  have hsparing : barren.uncapped.Sparing (.code restoring ByteArray.empty) 100000 :=
    ⟨by decide, by decide, TransferPolicy.balances_quiet, fun _ _ _ => rfl⟩
  have hpays' := ((refund_within_gas ran' result').2 rfl).2 hsparing
  rw [hused, hrefund] at hpays
  rw [hrefund'] at hpays'
  exact ⟨⟨T, report, accounts, ran, result, hused, hpays⟩,
    ⟨T', report', accounts', ran', result', hused', hpays'⟩⟩

/-- Clears a slot. -/
def clearing : Bytes := ⟨#[0x60, 0, 0x60, 0, 0x55]⟩

/-- Reads three slots of the account that it is to create, and reverts. -/
def peeking : Bytes := ⟨#[0x60, 0, 0x54, 0x60, 1, 0x54, 0x60, 2, 0x54, 0xfd]⟩

/-- Has such an account created. -/
def peekingCreator : Bytes :=
  ⟨#[0x69] ++ peeking.data ++ #[0x60, 0, 0x52, 0x60, 10, 0x60, 22, 0x60, 0, 0xf0]⟩

/-- Calls account 2, and then clears three slots. -/
def clearingLater : Bytes :=
  ⟨#[0x60, 0, 0x60, 0, 0x60, 0, 0x60, 0, 0x60, 0, 0x60, 2, 0x5a, 0xf1, 0x50,
    0x60, 0, 0x60, 0, 0x55, 0x60, 0, 0x60, 1, 0x55, 0x60, 0, 0x60, 2, 0x55]⟩

def successor : Address := ContractAddress.ofNonce 2 0

/-- Runs by the rules of Frontier, on an account with one slot that is not zero. -/
def vaulted : Executor :=
  uncapped ⟨{ tx := { target := 1 } }, .ofHardfork .frontier, .vault, .balances⟩

/-- Runs by the rules of London, on an account that has storage before account 2 creates it. -/
def usurped : Executor :=
  uncapped
    { environment := { tx := { target := successor } }
      rules := .ofHardfork .london
      database :=
        { Database.empty with
          account := fun a => if a = 2 then some (.ofCode 0 0 peekingCreator) else none
          slot := fun a _ => if a = successor then 7 else 0 } }

/-- Without the cap more may be paid back than was used: for clearing a slot in Frontier, and for restoring
zeros that a creation has recorded and that were never there. There is no answer then to how much was spent. -/
theorem refund_beyond_gas :
    (∃ T report accounts, vaulted.transact (.code clearing ByteArray.empty) 100000 = .ok T ∧
      T.result = .ok (report, accounts) ∧ report.gasUsed = 5006 ∧
        report.cappedRefund = .ok 15000 ∧ report.gasSpent = .error .overflow) ∧
    ∃ T report accounts, usurped.transact (.code clearingLater ByteArray.empty) 1000000 = .ok T ∧
      T.result = .ok (report, accounts) ∧ report.gasUsed = 47570 ∧
        report.cappedRefund = .ok 59700 ∧ report.gasSpent = .error .overflow := by
  have hvaulted : (vaulted.transact (.code clearing ByteArray.empty) 100000).map
      (·.result.toOption.map fun p => (p.1.gasUsed, p.1.cappedRefund)) =
        .ok (some (5006, .ok 15000)) := by
    decide +kernel
  have husurped : (usurped.transact (.code clearingLater ByteArray.empty) 1000000).map
      (·.result.toOption.map fun p => (p.1.gasUsed, p.1.cappedRefund)) =
        .ok (some (47570, .ok 59700)) := by
    decide +kernel
  obtain ⟨T, report, accounts, ran, result, hreport⟩ := exists_report hvaulted
  obtain ⟨T', report', accounts', ran', result', hreport'⟩ := exists_report husurped
  obtain ⟨hused, hcapped⟩ := Prod.mk.inj hreport
  obtain ⟨hused', hcapped'⟩ := Prod.mk.inj hreport'
  have hbeyond : report.gasUsed < 15000 := hused.trans_lt (by decide)
  have hbeyond' : report'.gasUsed < 59700 := hused'.trans_lt (by decide)
  exact ⟨⟨T, report, accounts, ran, result, hused, hcapped, Report.gasSpent_of_lt hcapped hbeyond⟩,
    ⟨T', report', accounts', ran', result', hused', hcapped', Report.gasSpent_of_lt hcapped' hbeyond'⟩⟩

end Executor

end MeteredVM
