import MeteredVM.Proofs.Session.Course
import MeteredVM.Proofs.Session.Surface

namespace MeteredVM

open Journal Relation

namespace Executor

variable {x : Executor} {inner : Option (Host Session)} {h : Host Session} {s t : Session}
  {mark : Checkpoint}

theorem emit_eq (event : Nat → FrameEvent) (s : Session) :
    Session.emit event s = .ok ((), s.noting event) :=
  rfl

theorem call_of_loaded {r : CallRequest} {code : Loaded Bytes}
    (loaded : Session.load (Journal.loadCode x.database r.codeAddress) s = .ok code t) :
    x.call inner r s = x.callCode inner r code.value t := by
  simp only [call, Bind.bind, StateT.bind, Session.attempt, loaded, Except.bind]

theorem callCode_of_opened {r : CallRequest} {code : Bytes}
    (opened : x.openCall r (s.noting (.callOpened · r.codeAddress r.gasLimit)) = .ok (.ok mark, t))
    (nonempty : code.size ≠ 0) :
    x.callCode (some h) r code s =
      runCode h (x.callInvocation r code) r.gasLimit t >>= fun p => closeCall mark p.1 p.2 := by
  simp only [callCode, Bind.bind, StateT.bind, emit_eq, opened, Except.bind, nonempty, if_false]

theorem create_of_opened {r : CreateRequest} {address : Address}
    (opened : x.endowCreate r (s.noting (.createOpened · r.creator r.gasLimit)) =
      .ok (.ok (address, mark), t)) :
    x.create (some h) r s = runCode h (x.createInvocation r address) r.gasLimit t >>= fun p =>
      x.closeCreate address mark p.1 p.2 >>= fun q =>
        .ok (q.1, q.2.noting (.createClosed · q.1.status q.1.address)) := by
  have hpure : ∀ (reply : CreateReply) (u : Session),
      (pure reply : Nested Session CreateReply) u = .ok (reply, u) := fun _ _ => rfl
  simp only [create, Bind.bind, StateT.bind, emit_eq, opened, Except.bind, hpure]

end Executor

/-- What is about to be done at the point has an answer, however far it is taken, and the nonce that a
creation is counted with can be counted back from. -/
structure Scene.Answers (x : Executor) (c : Scene) : Prop where
  leaves : ∃ t, x.leaves c = .ok t
  counts {r : CreateRequest} {n : Nat} {t : Session} (creates : c.activity = .create r)
    (counted : x.countCreation r (c.session.noting (.createOpened · r.creator r.gasLimit)) =
      .ok n t) :
    (t.journal.accounts[r.creator]?).map (·.info.nonce) = some (n + 1)
  steps {f : Frame} (runs : c.activity = .step f) (n : Nat) :
    ∃ m output, Machine.runFor (x.host (x.hostWithin c.room)) n ⟨f, c.session⟩ = .ok m ∧
      m.frame.outputData = .ok output

namespace Executor

variable {x : Executor} {room : Nat} {s t : Session} {b c d : Scene}

theorem countCreation_nonce {r : CreateRequest} {n : Nat} (h : x.countCreation r s = .ok n t) :
    (t.journal.accounts[r.creator]?).map (·.info.nonce) = some (n + 1) := by
  obtain ⟨hcounted, hloaded⟩ := countCreation_ends.ok h
  obtain ⟨y, hy⟩ := Option.isSome_iff_exists.mp hloaded
  have hnonce : (t.journal.view x.database r.creator).nonce = n + 1 := by
    rw [hcounted.view, if_pos rfl, hcounted.nonce]
  rw [view_of_loaded hy] at hnonce
  rw [hy]
  exact congrArg some hnonce

def Sturdy (x : Executor) (c : Scene) : Prop :=
  (∃ t, x.leaves c = .ok t) ∧ ∀ f, c.activity = .step f → f.Solid ∧
    ∀ n, ∃ m, Machine.runFor (x.host (x.hostWithin c.room)) n ⟨f, c.session⟩ = .ok m

theorem Sturdy.answers (h : x.Sturdy c) : c.Answers x where
  leaves := h.1
  counts _ counted := countCreation_nonce counted
  steps runs n := by
    obtain ⟨hsolid, hruns⟩ := h.2 _ runs
    obtain ⟨m, hm⟩ := hruns n
    have hspends := Machine.runFor_spends (x.host_frugal _) (fun _ : True => hsolid) hm
    obtain ⟨output, houtput⟩ := (hspends.follows.solid trivial).1.outputData
    exact ⟨m, output, hm, houtput⟩

theorem Sturdy.of_leaves {a : Activity} (left : x.leaves ⟨room, a, s⟩ = .ok t)
    (opens : ∀ f, a ≠ .step f) : x.Sturdy ⟨room, a, s⟩ :=
  ⟨⟨t, left⟩, fun f hf => absurd hf (opens f)⟩

theorem Sturdy.start {i : Invocation} {gasLimit : Nat} {p : Frame × Session}
    (h : runCode (x.host (x.hostWithin room)) i gasLimit s = .ok p) :
    x.Sturdy ⟨room, .step (.start i gasLimit), s⟩ := by
  refine ⟨⟨s, rfl⟩, ?_⟩
  rintro f ⟨⟩
  have hsolid := Frame.start_solid i gasLimit
  obtain ⟨m, hm, -⟩ := Except.map_eq_ok h
  obtain ⟨-, hended⟩ := Machine.run_ends (x.host_frugal room) (fun _ : True => hsolid) hm
  obtain ⟨u, hu, rfl⟩ := Except.map_eq_ok hm
  rw [Machine.status_punish] at hended
  exact ⟨hsolid, Machine.runFor_of_ended hu hended⟩

/-- What has an answer has one at every move, for what a move begins is part of it. -/
theorem Sturdy.next (hc : x.Sturdy c) (hnext : x.Next c d) : x.Sturdy d := by
  obtain ⟨⟨u, hleaves⟩, hsteps⟩ := hc
  cases hnext with
  | loadCode loaded =>
    refine .of_leaves (t := u) ?_ fun _ => nofun
    simp only [leaves] at hleaves ⊢
    rwa [call_of_loaded loaded] at hleaves
  | payCall | payCreate => exact .of_leaves rfl fun _ => nofun
  | openCall opened nonempty =>
    simp only [leaves, hostWithin, callCode_of_opened opened nonempty] at hleaves
    obtain ⟨p, hp, -⟩ := Except.map_eq_ok hleaves
    obtain ⟨q, hq, -⟩ := Except.bind_eq_ok hp
    exact .start hq
  | openCreate opened =>
    simp only [leaves, hostWithin, create_of_opened opened] at hleaves
    obtain ⟨p, hp, -⟩ := Except.map_eq_ok hleaves
    obtain ⟨q, hq, -⟩ := Except.bind_eq_ok hp
    exact .start hq
  | @step room f s m running stepped =>
    obtain ⟨hsolid, hruns⟩ := hsteps f rfl
    refine ⟨⟨_, rfl⟩, ?_⟩
    rintro g ⟨⟩
    have hspends := Machine.step_spends (x.host_frugal room) (fun _ : True => hsolid) stepped
    refine ⟨(hspends.follows.solid trivial).1, fun n => ?_⟩
    obtain ⟨v, hv⟩ := hruns (n + 1)
    rw [Machine.runFor_succ running] at hv
    obtain ⟨w, hw, hv⟩ := Except.bind_eq_ok hv
    cases stepped.symm.trans hw
    exact ⟨v, hv⟩
  | @nest room f s r m running asking =>
    obtain ⟨hsolid, hruns⟩ := hsteps f rfl
    obtain ⟨v, hv⟩ := hruns 1
    rw [Machine.runFor_succ running] at hv
    obtain ⟨w, hw, -⟩ := Except.bind_eq_ok hv
    have ht := asking.ran hw
    cases r with
    | call r into => exact .of_leaves ht fun _ => nofun
    | create r => exact .of_leaves ht fun _ => nofun

theorem Sturdy.reaches (hb : x.Sturdy b) (h : x.Reaches b c) : x.Sturdy c := by
  induction h with
  | refl => exact hb
  | tail _ hnext ih => exact ih.next hnext

/-- At the start of a transaction there has been no refund, and no lookup has failed. -/
theorem Starts.clear {task : Task} {gasLimit : Nat} (hb : x.Starts task gasLimit b) :
    b.session.Clear x.database ∧ b.session.journal.refund = 0 := by
  have hlooks := hb.looks
  obtain ⟨j, hj, rfl⟩ := hb
  have hempty : x.database.Answers (ofHardfork x.rules.hardfork).lookups := trivial
  have hloads := loadAll_heeds x.database (x.warm (x.targetOf task)) _ hempty
  exact ⟨⟨rfl, hloads.ok hj⟩, hlooks.others.2.2⟩

/-- The refunds of a transaction with so much gas fit in the counter. -/
theorem Starts.runs {task : Task} {gasLimit : Nat} (hb : x.Starts task gasLimit b)
    (hp : x.transfers.Sound) (hgas : gasLimit ≤ 2 ^ 48) :
    ∃ e t, x.runTask task gasLimit b.session = .ok (e, t) ∧ e.Conclusive x.database t := by
  obtain ⟨hclear, hrefund⟩ := hb.clear
  have hmax : gasLimit ≤ Amount.max := Nat.le_trans hgas (by decide)
  have hruns := runTask_conclusive task hp hmax hclear
  cases hrun : x.runTask task gasLimit b.session with
  | ok p => exact ⟨p.1, p.2, rfl, hruns.ok hrun⟩
  | error e =>
    obtain ⟨-, hoverruns⟩ := hruns.error hrun
    rw [ceiling, hrefund, Int.natAbs_zero, Nat.zero_add] at hoverruns
    have hless : Price.mostRefund * (gasLimit + 1) ≤ Price.mostRefund * (2 ^ 48 + 1) :=
      Nat.mul_le_mul_left _ (Nat.succ_le_succ hgas)
    exact absurd (Nat.le_trans hoverruns hless) (by decide)

theorem Starts.sturdy {task : Task} {gasLimit : Nat} (hb : x.Starts task gasLimit b)
    (hp : x.transfers.Sound) (hgas : gasLimit ≤ 2 ^ 48) : x.Sturdy b := by
  obtain ⟨e, t, hrun, -⟩ := hb.runs hp hgas
  have hleaves := hb.leaves hrun
  obtain ⟨j, -, rfl⟩ := hb
  cases task with
  | code | call | create => exact .of_leaves hleaves fun _ => nofun

/-- A transaction comes to a result, whatever its database answers, and so does everything that is begun
in it: each frame, each number of its steps, and the reading of its output. -/
theorem transactions_answer (x : Executor) (hp : x.transfers.Sound) (task : Task) {gasLimit : Nat}
    (hgas : gasLimit ≤ 2 ^ 48) :
    (∃ T, x.transact task gasLimit = .ok T) ∧
      ∀ b, x.Starts task gasLimit b → ∀ c, x.Reaches b c → c.Answers x := by
  refine ⟨?_, fun b hb c hbc => ((hb.sturdy hp hgas).reaches hbc).answers⟩
  simp only [transact]
  cases hload : loadAll x.database (x.warm (x.targetOf task)) (.ofHardfork x.rules.hardfork) with
  | error outage j => exact ⟨_, rfl⟩
  | ok _ j =>
    have hb : x.Starts task gasLimit ⟨maxFrames, x.opening gasLimit task, { journal := j }⟩ :=
      ⟨j, hload, rfl⟩
    obtain ⟨e, t, hrun, hconclusive⟩ := hb.runs hp hgas
    obtain ⟨T, hT, -⟩ := conclude_surfaces hconclusive
    refine ⟨T, ?_⟩
    simp only [hrun, Bind.bind, Except.bind, hT]

/-- A lookup fails in a nested frame, and still there is an answer at the start and a result. -/
theorem transactions_answer_calling :
    100000 ≤ 2 ^ 48 ∧
      (∃ T, overPatchy.transact (.code calling ByteArray.empty) 100000 = .ok T) ∧
      ∃ b, overPatchy.Starts (.code calling ByteArray.empty) 100000 b ∧ b.Answers overPatchy := by
  have hgas : 100000 ≤ 2 ^ 48 := by decide
  obtain ⟨hresult, hanswers⟩ :=
    transactions_answer overPatchy (.inl rfl) (.code calling ByteArray.empty) hgas
  let j := leftBy (loadAll patchy (overPatchy.warm (some overPatchy.environment.tx.target)))
    (.ofHardfork .london)
  let b : Scene :=
    ⟨maxFrames, overPatchy.opening 100000 (.code calling ByteArray.empty), { journal := j }⟩
  have starts : overPatchy.Starts (.code calling ByteArray.empty) 100000 b := ⟨j, rfl, rfl⟩
  exact ⟨hgas, hresult, b, starts, hanswers b starts b .refl⟩

end Executor

end MeteredVM
