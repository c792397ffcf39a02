import MeteredVM.Proofs.Session.Answer
import MeteredVM.Proofs.Session.Deployment
import MeteredVM.Proofs.Session.Refund

namespace MeteredVM

open Journal Relation

namespace Executor

/-- The frame that is about to be opened leaves a state in which everything is kept that was done up to a
point: that is the point itself, or where the code is at hand, or where the frame has run to its end if it
is kept then. -/
inductive Retains (x : Executor) : Scene → Scene → Session → Prop
  | here {q : Scene} {u : Session} (left : x.leaves q = .ok u) : Retains x q q u
  | loadCode {room : Nat} {r : CallRequest} {code : Loaded Bytes} {s t u : Session} {c : Scene}
      (loaded : Session.load (Journal.loadCode x.database r.codeAddress) s = .ok code t)
      (retains : Retains x ⟨room, .callCode r code.value, t⟩ c u) :
      Retains x ⟨room, .call r, s⟩ c u
  | call {room n : Nat} {r : CallRequest} {code : Bytes} {s t u : Session} {mark : Checkpoint}
      {m : Machine Session} {reply : CallReply}
      (opened : x.openCall r (s.noting (.callOpened · r.codeAddress r.gasLimit)) =
        .ok (.ok mark, t))
      (nonempty : code.size ≠ 0)
      (ran : Machine.runFor (x.host (x.hostWithin room)) n
        ⟨.start (x.callInvocation r code) r.gasLimit, t⟩ = .ok m)
      (ended : m.frame.status ≠ .running)
      (replied : x.callCode (x.hostWithin (room + 1)) r code s = .ok (reply, u))
      (kept : reply.status.isOk = true) :
      Retains x ⟨room + 1, .callCode r code, s⟩ ⟨room, .step m.frame, m.world⟩ u
  | create {room n : Nat} {r : CreateRequest} {s t u : Session} {address : Address}
      {mark : Checkpoint} {m : Machine Session} {reply : CreateReply}
      (opened : x.endowCreate r (s.noting (.createOpened · r.creator r.gasLimit)) =
        .ok (.ok (address, mark), t))
      (ran : Machine.runFor (x.host (x.hostWithin room)) n
        ⟨.start (x.createInvocation r address) r.gasLimit, t⟩ = .ok m)
      (ended : m.frame.status ≠ .running)
      (replied : x.create (x.hostWithin (room + 1)) r s = .ok (reply, u))
      (kept : reply.status.isOk = true) :
      Retains x ⟨room + 1, .create r, s⟩ ⟨room, .step m.frame, m.world⟩ u

/-- How a transaction that has begun at `b` goes on without undoing anything: to a next point, or out of a
nested frame to where the frame that asked for it goes on. -/
inductive Onward (x : Executor) (b : Scene) : Scene → Scene → Prop
  | next {c d : Scene} (hnext : x.Next c d) : Onward x b c d
  | leave {room : Nat} {f : Frame} {s : Session} {r : Request} {m n : Machine Session} {c : Scene}
      (reached : x.Reaches b ⟨room, .step f, s⟩) (running : f.status = .running)
      (asking : Machine.Asking (x.host (x.hostWithin room)) ⟨f, s⟩ r m)
      (stepped : Machine.step (x.host (x.hostWithin room)) ⟨f, s⟩ = .ok n)
      (retains : x.Retains ⟨room, .ofRequest r, m.world⟩ c n.world) :
      Onward x b c ⟨room, .step n.frame, n.world⟩

/-- A later state of a transaction that has begun at `b` in which everything is kept that was done up to a
point: at another point, or at the end. -/
inductive Lasts (x : Executor) (b : Scene) : Scene → Session → Prop
  | onward {c d : Scene} (onward : ReflTransGen (x.Onward b) c d) : Lasts x b c d.session
  | ends {c d : Scene} {u : Session} (onward : ReflTransGen (x.Onward b) c d)
      (retains : x.Retains b d u) : Lasts x b c u

variable {x : Executor} {D : Set (Address × Bytes)} {r : CreateRequest} {room : Nat} {s t u : Session}
  {b c d q : Scene} {a : Address}

theorem Onward.reaches (h : x.Onward b c d) (hc : x.Reaches b c) : x.Reaches b d := by
  cases h with
  | next hnext => exact hc.tail hnext
  | leave reached running asking stepped retains => exact reached.tail (.step running stepped)

/-- Where the run of a frame has ended, it leaves the world. -/
theorem world_of_run {i : Invocation} {gasLimit n : Nat} {m : Machine Session} {f : Frame}
    (ran : Machine.runFor (x.host (x.hostWithin room)) n ⟨.start i gasLimit, s⟩ = .ok m)
    (ended : m.frame.status ≠ .running)
    (hrun : runCode (x.host (x.hostWithin room)) i gasLimit s = .ok (f, t)) :
    m.world = t ∧ m.frame.status = f.status := by
  obtain ⟨l, hl, hft⟩ := Except.map_eq_ok hrun
  cases hft
  have hsolid := Frame.start_solid i gasLimit
  obtain ⟨-, hended⟩ := Machine.run_ends (x.host_frugal room) (fun _ : True => hsolid) hl
  obtain ⟨k, hk, rfl⟩ := Except.map_eq_ok hl
  rw [Machine.status_punish] at hended ⊢
  rw [Machine.world_punish]
  obtain rfl := Machine.runFor_unique ran ended hk hended
  exact ⟨rfl, rfl⟩

theorem closeCall_commits {mark : Checkpoint} {f : Frame} :
    Yields (closeCall mark f) s (fun _ => True) fun reply t =>
      reply.status.isOk = true → s.journal.commit = .ok t.journal := by
  apply closeCall_rule
  · exact fun _ _ => trivial
  · exact fun _ => Session.commit_any.imp fun _ _ ht _ _ => ht
  · exact fun hfailed => .any fun _ _ _ _ hok => absurd (hok.symm.trans hfailed) Bool.noConfusion

theorem closeCall_reverts {mark : Checkpoint} {f : Frame} :
    Yields (closeCall mark f) s (fun _ => True) fun _ t =>
      f.status.isOk = false → s.journal.revert mark = .ok t.journal := by
  apply closeCall_rule
  · exact fun _ _ => trivial
  · exact fun hkept => .any fun _ _ _ _ hfailed => absurd (hkept.symm.trans hfailed) Bool.noConfusion
  · exact fun _ => Session.revert_any.imp fun _ _ ht _ _ => ht

section Called

variable {n : Nat} {r : CallRequest} {code : Bytes} {mark : Checkpoint} {m : Machine Session}
  (opened : x.openCall r (s.noting (.callOpened · r.codeAddress r.gasLimit)) = .ok (.ok mark, t))
  (nonempty : code.size ≠ 0)
  (ran : Machine.runFor (x.host (x.hostWithin room)) n
    ⟨.start (x.callInvocation r code) r.gasLimit, t⟩ = .ok m)
  (ended : m.frame.status ≠ .running)

include opened nonempty ran ended

/-- A call is closed in the world in which the run of its frame has ended. -/
theorem exists_close_of_replied {reply : CallReply}
    (replied : x.callCode (x.hostWithin (room + 1)) r code s = .ok (reply, u)) :
    ∃ f, f.status = m.frame.status ∧ closeCall mark f m.world = .ok (reply, u) := by
  have hopened : x.callCode (x.hostWithin (room + 1)) r code s =
      runCode (x.host (x.hostWithin room)) (x.callInvocation r code) r.gasLimit t >>=
        fun p => closeCall mark p.1 p.2 := callCode_of_opened opened nonempty
  rw [hopened] at replied
  obtain ⟨⟨f, v⟩, hrun, hclose⟩ := Except.bind_eq_ok replied
  obtain ⟨rfl, hstatus⟩ := world_of_run ran ended hrun
  exact ⟨f, hstatus.symm, hclose⟩

theorem callCode_reverts (failed : m.frame.status.isOk = false)
    (left : x.leaves ⟨room + 1, .callCode r code, s⟩ = .ok u) :
    m.world.journal.revert mark = .ok u.journal := by
  obtain ⟨⟨reply, v⟩, hreplied, hv⟩ := Except.map_eq_ok left
  cases hv
  obtain ⟨f, hstatus, hclose⟩ := exists_close_of_replied opened nonempty ran ended hreplied
  exact closeCall_reverts.ok hclose (hstatus ▸ failed)

end Called

end Executor

/-- What may become of the code of an account: it stays, or there was none and code of `D` is deployed. -/
def AccountView.KeepsCode (D : Set (Address × Bytes)) (a : Address) (v w : AccountView) : Prop :=
  w.codeHash = v.codeHash ∨
    v.codeHash = emptyCodeHash ∧ ∃ code, (a, code) ∈ D ∧ w.codeHash = MeteredVM.codeHash code

namespace AccountView

variable {D : Set (Address × Bytes)} {a : Address} {u v w : AccountView}

theorem Develops.keepsCode (h : v.Develops D a w) : v.KeepsCode D a w :=
  h.code.imp_right fun ⟨hfree, hdeployed⟩ => ⟨hfree.1, hdeployed⟩

theorem KeepsCode.trans (h : u.KeepsCode D a v) (h' : v.KeepsCode D a w) : u.KeepsCode D a w := by
  obtain hsame | ⟨hnone, code, stored, hcode⟩ := h
  · rw [KeepsCode, ← hsame]
    exact h'
  · obtain hsame' | ⟨-, hdeployed⟩ := h'
    · exact .inr ⟨hnone, code, stored, hsame'.trans hcode⟩
    · exact .inr ⟨hnone, hdeployed⟩

end AccountView

namespace Executor

variable {x : Executor} {D : Set (Address × Bytes)} {s t u : Session} {b c d q : Scene}

def KeepsCode (x : Executor) (D : Set (Address × Bytes)) (j k : Journal) : Prop :=
  ∀ a, (j.view x.database a).KeepsCode D a (k.view x.database a)

theorem KeepsCode.trans {i j k : Journal} (h : x.KeepsCode D i j) (h' : x.KeepsCode D j k) :
    x.KeepsCode D i k :=
  fun a => (h a).trans (h' a)

theorem KeepsCode.of_upright {j k : Journal} (h : Upright x.database D j k)
    (clears : j.clearsEmpty = true) : x.KeepsCode D j k :=
  fun a => (h.develops clears a).keepsCode

theorem KeepsCode.of_commit {j k : Journal} (h : j.commit = .ok k) : x.KeepsCode D j k := by
  rw [commit_eq_ok h]
  exact fun _ => .inl rfl

/-- What a kept frame has done lasts where it is left. A creation deploys where there is no code. -/
theorem Retains.keepsCode (hp : x.transfers.Civil) (h : x.Retains q c u)
    (hq : x.deployments q ⊆ D) (clears : q.session.journal.clearsEmpty = true) :
    x.KeepsCode D c.session.journal u.journal := by
  induction h with
  | here left =>
    exact .of_upright ((upright_watch x D).leaves (upright_pact hp) hq left) clears
  | @loadCode room r code s t u c loaded retains ih =>
    have hnext : x.Next ⟨room, .call r, s⟩ ⟨room, .callCode r code.value, t⟩ := .loadCode loaded
    have hlooks := (Reaches.upright hp (.single hnext) hq).hardfork
    exact ih ((deployments_subset (.single hnext)).trans hq) ((clearsEmpty_congr hlooks).trans clears)
  | @call room n r code s t u mark m reply opened nonempty ran ended replied kept =>
    obtain ⟨f, -, hclose⟩ := exists_close_of_replied opened nonempty ran ended replied
    have hcommit : m.world.journal.commit = .ok u.journal := closeCall_commits.ok hclose kept
    exact .of_commit hcommit
  | @create room n r s t u address mark m reply opened ran ended replied kept =>
    obtain ⟨h, hinner, a, mark', t', f, v, output, creates⟩ := (create_creates hp).ok replied kept
    cases hinner
    cases opened.symm.trans creates.endowed
    obtain ⟨rfl, -⟩ := world_of_run ran ended creates.ran
    obtain ⟨k, hcommit, hdeployed⟩ := creates.deployed
    have hreach : x.Reaches ⟨room + 1, .create r, s⟩
        ⟨room, .step (.start (x.createInvocation r address) r.gasLimit), t⟩ :=
      .single (.openCreate opened)
    have hstarted := Reaches.upright hp hreach hq
    have hran := Reaches.upright hp (reaches_of_runFor ran) ((deployments_subset hreach).trans hq)
    have htclears := (clearsEmpty_congr hstarted.hardfork).trans clears
    obtain ⟨-, hloaded, hempty, htaken⟩ := endowCreate_taken (s := s.noting _) hp clears opened
    have hnone : (m.world.journal.view x.database address).codeHash = emptyCodeHash := by
      obtain hsame | ⟨hfree, -⟩ := (hran.develops htclears address).code
      · exact hsame.trans hempty
      · exact absurd hfree htaken
    have hstored : (address, reply.output) ∈ D := hq ⟨_, .refl, .intro replied kept creates.created⟩
    rw [hdeployed]
    refine .trans (.of_commit hcommit) fun b => ?_
    by_cases hab : address = b
    · subst hab
      refine .inr ⟨?_, reply.output, hstored, codeHash_setCode ?_ _⟩
      · rw [commit_eq_ok hcommit]
        exact hnone
      · rw [commit_eq_ok hcommit]
        exact hran.restores.loaded hloaded
    · exact .inl ((view_setCode k address reply.output b).2.2.2 hab)

section Begun

variable (hp : x.transfers.Civil) (clears : b.session.journal.clearsEmpty = true)

include hp clears

theorem clears_of_reaches (h : x.Reaches b c) : c.session.journal.clearsEmpty = true :=
  (clearsEmpty_congr (Reaches.upright (D := x.deployments b) hp h subset_rfl).hardfork).trans clears

theorem Onward.keepsCode (hc : x.Reaches b c) (h : x.Onward b c d) :
    x.KeepsCode (x.deployments b) c.session.journal d.session.journal := by
  cases h with
  | next hnext =>
    exact .of_upright (Reaches.upright hp (.single hnext) (deployments_subset hc)) (clears_of_reaches hp clears hc)
  | leave reached running asking stepped retains =>
    have hnested := reached.tail (.nest running asking)
    exact retains.keepsCode hp (deployments_subset hnested) (clears_of_reaches hp clears hnested)

/-- What has been done up to a point lasts while the transaction goes on without undoing it. -/
theorem Onward.keepsCode_trans (hc : x.Reaches b c) (h : ReflTransGen (x.Onward b) c d) :
    x.Reaches b d ∧ x.KeepsCode (x.deployments b) c.session.journal d.session.journal := by
  induction h with
  | refl => exact ⟨hc, fun _ => .inl rfl⟩
  | tail _ honward ih =>
    obtain ⟨hd, hkept⟩ := ih
    exact ⟨honward.reaches hd, hkept.trans (honward.keepsCode hp clears hd)⟩

theorem Lasts.keepsCode (hc : x.Reaches b c) (h : x.Lasts b c t) :
    x.KeepsCode (x.deployments b) c.session.journal t.journal := by
  cases h with
  | onward onward => exact (Onward.keepsCode_trans hp clears hc onward).2
  | ends onward retains =>
    obtain ⟨-, hkept⟩ := Onward.keepsCode_trans hp clears hc onward
    exact hkept.trans (retains.keepsCode hp subset_rfl clears)

end Begun

/-- Every point that is reached is one where all that was done before it lasts. -/
theorem Lasts.of_reaches (h : x.Reaches c d) : x.Lasts b c d.session :=
  .onward (h.lift id fun _ _ hnext => .next hnext)

theorem Starts.view {task : Task} {gasLimit : Nat} (hb : x.Starts task gasLimit b) (a : Address) :
    b.session.journal.view x.database a = (fresh x.database a).view x.database a := by
  rw [hb.looks.view, view_ofHardfork]

/-- Since Spurious Dragon the code of an account is written once. An account that has code in the
database, or at some point of a transaction, has the same code as long as what was done up to there is not
undone. Where the code of an account is another one than before, a creation of that account that has ended
well has deployed it, and such a creation has found the address free and has paid for code that may be
stored. -/
theorem code_written_once (hp : x.transfers.Civil) (hrules : x.rules.since .spuriousDragon = true)
    {task : Task} {gasLimit : Nat} (starts : x.Starts task gasLimit b) :
    (∀ c, x.Reaches b c → ∀ a, (fresh x.database a).info.codeHash ≠ emptyCodeHash →
      (c.session.journal.view x.database a).codeHash = (fresh x.database a).info.codeHash) ∧
    (∀ c t, x.Reaches b c → x.Lasts b c t → ∀ a,
      ((c.session.journal.view x.database a).codeHash ≠ emptyCodeHash →
        (t.journal.view x.database a).codeHash = (c.session.journal.view x.database a).codeHash) ∧
      ((t.journal.view x.database a).codeHash ≠ (c.session.journal.view x.database a).codeHash →
        ∃ d code, x.Reaches b d ∧ x.Deploys d (a, code) ∧
          (t.journal.view x.database a).codeHash = codeHash code)) ∧
    ∀ d a code, x.Reaches b d → x.Deploys d (a, code) → x.Deposits a code d := by
  have clears : b.session.journal.clearsEmpty = true := by
    rw [clearsEmpty, starts.looks.others.1]
    exact hrules
  have kept {c : Scene} {t : Session} (hc : x.Reaches b c) (lasts : x.Lasts b c t) (a : Address)
      (hcode : (c.session.journal.view x.database a).codeHash ≠ emptyCodeHash) :
      (t.journal.view x.database a).codeHash = (c.session.journal.view x.database a).codeHash :=
    (lasts.keepsCode hp clears hc a).resolve_right fun hwritten => hcode hwritten.1
  refine ⟨fun c hc a hcode => ?_, fun c t hc lasts a => ⟨kept hc lasts a, fun hchanged => ?_⟩,
    fun d a code _ hdeploys => hdeploys.deposits hp hrules⟩
  · have hstart : (b.session.journal.view x.database a).codeHash =
        (fresh x.database a).info.codeHash := congrArg AccountView.codeHash (starts.view a)
    rw [← hstart] at hcode ⊢
    exact kept .refl (.of_reaches hc) a hcode
  · obtain hsame | ⟨-, code, ⟨d, hd, hdeploys⟩, hcode⟩ := lasts.keepsCode hp clears hc a
    · exact absurd hsame hchanged
    · exact ⟨d, code, hd, hdeploys, hcode⟩

/-- Init code that returns one zero byte. -/
def yielding : Bytes := ⟨#[0x60, 1, 0x60, 0, 0xf3]⟩

/-- A transaction that creates an account: there was no code before it, and the byte is stored after it. -/
theorem code_written_once_yielding :
    barren.transfers.Civil ∧ barren.rules.since .spuriousDragon = true ∧
      ∃ b t a, barren.Starts (.create yielding) 100000 b ∧ barren.leaves b = .ok t ∧
        barren.Deploys b (a, ⟨#[0]⟩) ∧ barren.Deposits a ⟨#[0]⟩ b ∧
        (b.session.journal.view .empty a).codeHash = emptyCodeHash ∧
        (t.journal.view .empty a).codeHash = codeHash ⟨#[0]⟩ := by
  let j := leftBy (loadAll barren.database (barren.warm none)) (.ofHardfork .london)
  let r : CreateRequest :=
    ⟨barren.environment.tx.caller, none, barren.environment.tx.value, yielding, 100000⟩
  let b : Scene := ⟨maxFrames, .create r, { journal := j }⟩
  have hcivil : barren.transfers.Civil := TransferPolicy.civil_of_known (.inl rfl)
  have hrules : barren.rules.since .spuriousDragon = true := by decide
  have starts : barren.Starts (.create yielding) 100000 b := ⟨j, rfl, rfl⟩
  have hrun : (barren.create (barren.hostWithin maxFrames) r b.session).map (fun p =>
      (p.1.status.isOk, p.1.output.data, p.1.address.map fun a =>
        ((j.view .empty a).codeHash, (p.2.journal.view .empty a).codeHash))) =
      .ok (true, #[0], some (emptyCodeHash, codeHash ⟨#[0]⟩)) := by
    decide +kernel
  obtain ⟨⟨reply, t⟩, hrun, hends⟩ := Except.map_eq_ok hrun
  simp only [Prod.mk.injEq] at hends
  obtain ⟨hstatus, houtput, haddress⟩ := hends
  obtain ⟨a, ha, hcodes⟩ := Option.map_eq_some_iff.mp haddress
  obtain ⟨hbefore, hafter⟩ := Prod.mk.inj hcodes
  have houtput : reply.output = ⟨#[0]⟩ := ByteArray.ext houtput
  have hdeploys : barren.Deploys b (a, ⟨#[0]⟩) := houtput ▸ .intro hrun hstatus ha
  obtain ⟨-, -, hdeposits⟩ := code_written_once hcivil hrules starts
  refine ⟨hcivil, hrules, b, t, a, starts, ?_, hdeploys, hdeposits b a _ .refl hdeploys, hbefore, hafter⟩
  exact congrArg (Except.map Prod.snd) hrun

end Executor

end MeteredVM
