import MeteredVM.Proofs.Frame.Operands
import MeteredVM.Proofs.Session.Deed
import MeteredVM.Proofs.Session.Static
import MeteredVM.Proofs.Session.Trace

namespace MeteredVM

open Journal Relation

namespace Journal

variable {db : Database}

/-- At the start of a transaction no account has been created. -/
theorem ofHardfork_sound {K : Set (Address × Nat)} (fork : Hardfork)
    (h : db.wealth < 2 ^ 256) : (ofHardfork fork).Sound db K := by
  refine ⟨?_, fun a ha => ?_⟩
  · rw [wealth_ofHardfork]
    exact h
  · rw [view_ofHardfork] at ha
    exact absurd (ha.symm.trans (fresh_created db a)) Bool.noConfusion

end Journal

namespace Executor

variable {x : Executor}

theorem Starts.valid {task : Task} {gasLimit : Nat} {b : Scene} {K : Set (Address × Nat)}
    (hb : x.Starts task gasLimit b) (hfunded : x.database.wealth < 2 ^ 256)
    (hgas : gasLimit ≤ Amount.max) (hK : x.creations b ⊆ K) : b.Valid x K := by
  have hlooks := hb.looks
  obtain ⟨j, -, rfl⟩ := hb
  refine ⟨?_, hlooks.others.1, ?_, ?_, hK⟩
  · have hdepth : j.depth = 0 := hlooks.extends.depth
    simp only [hdepth, Nat.zero_add]
  · exact (ofHardfork_sound _ hfunded).progress hlooks.progress
  · cases task with
    | code code input => exact hgas
    | call target input => exact hgas
    | create initCode => exact ⟨hgas, fun salted => by cases salted⟩

end Executor

/-- How a frame that ended with a status has left the journal: with as many frames open as before,
and if it failed, with the log and the refund counter of before and with the given values. -/
structure Journal.Settled (db : Database) (j : Journal) (status : Status)
    (values : Address → AccountView) (k : Journal) : Prop where
  depth : k.depth = j.depth
  logs (failed : status.isOk = false) : k.logs = j.logs
  refund (failed : status.isOk = false) : k.refund = j.refund
  values (failed : status.isOk = false) : k.view db = values

/-- The values of all accounts when a creation has failed: those of before, but if the creation got
as far as an address, its creator is touched and has another nonce. -/
def Journal.viewCounted (db : Database) (j : Journal) (creator : Address) (address : Option Address)
    (a : Address) : AccountView :=
  if address.isSome ∧ creator = a then
    { j.view db a with nonce := (j.view db a).nonce + 1, touched := true }
  else j.view db a

theorem Journal.Settled.of_restored {db : Database} {j k : Journal} {status : Status}
    (hextends : j.Extends k) (h : status.isOk = false → Restored db j k) :
    j.Settled db status (j.view db) k :=
  ⟨hextends.depth, fun failed => (h failed).others.2.1, fun failed => (h failed).others.2.2,
    fun failed => (h failed).view⟩

theorem Journal.Uncreated.view {db : Database} {j k : Journal} {creator : Address}
    {address : Option Address} (h : j.Uncreated db creator address k) :
    k.view db = j.viewCounted db creator address := by
  funext a
  cases address with
  | none =>
    rw [Looks.view h, viewCounted, if_neg]
    exact fun hsome => Bool.noConfusion hsome.1
  | some b =>
    obtain ⟨n, l, hl, hk⟩ := h
    rw [hk.view, hl.view, viewCounted]
    simp only [Option.isSome_some, true_and]

theorem Journal.Settled.of_uncreated {db : Database} {j k : Journal} {status : Status}
    {creator : Address} {address : Option Address} (hextends : j.Extends k)
    (h : status.isOk = false → j.Uncreated db creator address k) :
    j.Settled db status (j.viewCounted db creator address) k :=
  ⟨hextends.depth, fun failed => (h failed).others.1, fun failed => (h failed).others.2,
    fun failed => (h failed).view⟩

/-- The frame that is about to be opened leaves no trace if it fails. -/
def Scene.Settles (x : Executor) (c : Scene) : Prop :=
  match c.activity with
  | .call r =>
    Yields (x.call (x.hostWithin c.room) r) c.session (· = .overflow) fun reply t =>
      c.session.journal.Settled x.database reply.status (c.session.journal.view x.database) t.journal
  | .callCode r code =>
    Yields (x.callCode (x.hostWithin c.room) r code) c.session (· = .overflow) fun reply t =>
      c.session.journal.Settled x.database reply.status (c.session.journal.view x.database) t.journal
  | .create r =>
    Yields (x.create (x.hostWithin c.room) r) c.session (· = .overflow) fun reply t =>
      c.session.journal.Settled x.database reply.status
        (c.session.journal.viewCounted x.database r.creator reply.address) t.journal
  | .payment | .step _ => True

namespace Executor

variable {x : Executor} {K : Set (Address × Nat)} {c d : Scene}

theorem Reaches.valid (hp : x.transfers.Sound) (hK : ContractAddress.Distinct K)
    (h : x.Reaches c d) (hc : c.Valid x K) : d.Valid x K := by
  induction h with
  | refl => exact hc
  | tail _ hnext ih => exact hnext.valid hp hK ih

end Executor

theorem Scene.Valid.settles {x : Executor} {K : Set (Address × Nat)} {c : Scene}
    (hp : x.transfers.Sound) (hK : ContractAddress.Distinct K) (hc : c.Valid x K) :
    c.Settles x := by
  obtain ⟨room, activity, s⟩ := c
  have hconducts := Executor.conducts hp hK room
  cases activity with
  | call r => exact (hconducts.call hc).imp fun _ _ h => .of_restored h.1.1 h.2
  | callCode r code => exact (hconducts.callCode hc).imp fun _ _ h => .of_restored h.1.1 h.2
  | create r => exact (hconducts.create hc).imp fun _ _ h => .of_uncreated h.1.1 h.2
  | payment => trivial
  | step f => trivial

namespace Opcode

/-- The opcode opens no frames that may write. -/
def harmless : Opcode → Bool
  | create | create2 | call | callCode | delegateCall => false
  | _ => true

theorem request?_of_harmless {σ : Type} {h : Host σ} {op : Opcode} {y : Exec σ Request}
    (hop : op.harmless = true) (hy : op.request? h = some y) : y = Instruction.staticCall h := by
  cases op <;> cases hop <;> cases hy
  rfl

end Opcode

theorem Instruction.staticCall_eq_ok {σ : Type} {h : Host σ} {s t : Machine σ} {r : Request}
    (asked : Instruction.staticCall h s = .ok r t) : ∃ c into, r = .call c into ∧ c.isStatic = true := by
  obtain ⟨_, _, -, asked⟩ := Exec.bind_eq_ok asked
  obtain ⟨⟨requested, callee⟩, _, -, asked⟩ := Exec.bind_eq_ok asked
  obtain ⟨f, _, -, asked⟩ := Exec.bind_eq_ok asked
  obtain ⟨⟨input, into⟩, _, -, asked⟩ := Exec.bind_eq_ok asked
  obtain ⟨found, _, -, asked⟩ := Exec.bind_eq_ok asked
  obtain ⟨given, _, -, asked⟩ := Exec.bind_eq_ok asked
  cases asked
  exact ⟨_, into, rfl, rfl⟩

def Activity.Static : Activity → Prop
  | .call r | .callCode r _ => r.isStatic = true
  | .create _ => False
  | .payment => True
  | .step f => f.invocation.isStatic = true

namespace Executor

variable {x : Executor} {c d : Scene} {room : Nat} {r : CallRequest} {code : Bytes} {s : Session}

theorem static_next (hc : c.activity.Static) (h : x.Next c d) : d.activity.Static := by
  cases h with
  | loadCode => exact hc
  | payCall | payCreate => trivial
  | openCall => exact hc
  | openCreate => exact hc.elim
  | step running stepped =>
    exact (congrArg Invocation.isStatic (Machine.step_invocation stepped)).trans hc
  | @nest room f s r n running asking =>
    cases r with
    | call r => exact Invocation.MayCall.isStatic asking.permitted hc
    | create r =>
      exact absurd (hc.symm.trans (Invocation.MayCreate.writable asking.permitted)) Bool.noConfusion

section Harmless

variable (hcode : ∀ pos op, Opcode.ofByte? ((Code.ofBytes code).byteAt pos) = some op →
  op.harmless = true)

include hcode

/-- Code that opens none but static frames runs outside of them in one frame only. -/
theorem activity_of_harmless (h : x.Reaches ⟨room, .callCode r code, s⟩ d) :
    d.activity = .callCode r code ∨ d.activity.Static ∨
      ∃ f, d.activity = .step f ∧ f.invocation = x.callInvocation r code := by
  induction h with
  | refl => exact .inl rfl
  | @tail c d _ hnext ih =>
    obtain hactivity | hstatic | ⟨f, hf, hinvocation⟩ := ih
    · cases hnext with
      | payCall => exact .inr (.inl trivial)
      | openCall =>
        cases hactivity
        exact .inr (.inr ⟨_, rfl, rfl⟩)
      | _ => cases hactivity
    · exact .inr (.inl (static_next hstatic hnext))
    · cases hnext with
      | step running stepped =>
        cases hf
        exact .inr (.inr ⟨_, rfl, (Machine.step_invocation stepped).trans hinvocation⟩)
      | nest running asking =>
        cases hf
        obtain ⟨op, y, hop, hrequest, asked⟩ := asking
        rw [Frame.nextByte, hinvocation] at hop
        obtain ⟨_, _, -, asked⟩ := Exec.bind_eq_ok asked
        rw [Opcode.request?_of_harmless (hcode _ op hop) hrequest] at asked
        obtain ⟨callee, into, rfl, hstatic⟩ := Instruction.staticCall_eq_ok asked
        exact .inr (.inl hstatic)
      | _ => cases hf

theorem creations_of_harmless : x.creations ⟨room, .callCode r code, s⟩ = ∅ := by
  rw [Set.eq_empty_iff_forall_notMem]
  rintro p ⟨d, hd, hp⟩
  cases hp with
  | intro unsalted counts =>
    obtain hactivity | hstatic | ⟨f, hf, -⟩ := activity_of_harmless hcode hd
    · cases hactivity
    · exact hstatic
    · cases hf

end Harmless

end Executor

/-- At every point of a transaction, whatever frame is opened there: at no point of that frame there
are more than `maxFrames` frames open, and it leaves no trace if it fails, nor do the frames that are
nested in it. -/
theorem Executor.failed_frames_leave_no_trace (x : Executor) (hp : x.transfers.Sound)
    (hfunded : x.database.wealth < 2 ^ 256) {task : Task} {gasLimit : Nat}
    (hgas : gasLimit ≤ Amount.max) {b c d : Scene} (hb : x.Starts task gasLimit b)
    (hc : x.Reaches b c) {activity : Activity} (hproper : activity.Proper x)
    (hd : x.Reaches { c with activity := activity } d)
    (hK : ContractAddress.Distinct
      (x.creations b ∪ x.creations { c with activity := activity })) :
    d.session.journal.depth ≤ maxFrames ∧ d.Settles x := by
  have hcvalid := hc.valid hp hK (hb.valid hfunded hgas Set.subset_union_left)
  have hvalid : Scene.Valid x _ { c with activity := activity } :=
    ⟨hcvalid.depth, hcvalid.hardfork, hcvalid.sound, hproper, Set.subset_union_right⟩
  have hdvalid := Reaches.valid hp hK hd hvalid
  have hdepth := hdvalid.depth
  exact ⟨by omega, hdvalid.settles hp hK⟩

namespace Executor

/-- Writes a slot, has account 1 called statically, and fails. -/
def meddling : Bytes :=
  ⟨#[0x60, 1, 0x60, 0, 0x55, 0x60, 0, 0x60, 0, 0x60, 0, 0x60, 0, 0x60, 1, 0x5a, 0xfa, 0xfe]⟩

theorem meddling_harmless (pos : Nat) (op : Opcode)
    (hop : Opcode.ofByte? ((Code.ofBytes meddling).byteAt pos) = some op) : op.harmless = true := by
  have hbytes : ∀ pos < 19,
      (Opcode.ofByte? ((Code.ofBytes meddling).byteAt pos)).all Opcode.harmless = true := by
    decide +kernel
  by_cases hpos : pos < 19
  · have hall := hbytes pos hpos
    rwa [hop] at hall
  · have hstop := hbytes 18 (by decide)
    have hend : (Code.ofBytes meddling).byteAt pos = (Code.ofBytes meddling).byteAt 18 := by
      rw [Code.byteAt_of_length_le (Nat.le_of_not_lt fun h => hpos (Nat.lt_succ_of_lt h)),
        Code.byteAt_of_length_le (Nat.le_refl 18)]
    rwa [← hend, hop] at hstop

def meddler : Executor := ⟨{}, .ofHardfork .london, .writer, .balances⟩

/-- When the frame fails it has written the slot, and the frame nested in it has failed as well. -/
theorem failed_frames_leave_no_trace_meddling :
    ∃ b d f reply t, meddler.Starts (.code meddling ByteArray.empty) 100000 b ∧
      meddler.Reaches b d ∧ d.activity = .step f ∧ f.status = .invalidOpcode ∧
      (d.session.journal.view .writer 0x0a).slots 0 = 1 ∧
      d.session.events = [.callClosed 1 .writeInStaticCall 0, .callOpened 1 1 74101,
        .callOpened 0 0x0a 100000] ∧
      meddler.callCode (meddler.hostWithin maxFrames) (meddler.outerCall 0x0a ByteArray.empty 100000)
        meddling b.session = .ok (reply, t) ∧ reply.status = .invalidOpcode ∧
      t.journal.view .writer = b.session.journal.view .writer ∧
      ∀ e, meddler.Reaches b e → e.session.journal.depth ≤ maxFrames ∧ e.Settles meddler := by
  let j := leftBy (loadAll .writer (meddler.warm (some 0x0a))) (.ofHardfork .london)
  let r := meddler.outerCall 0x0a ByteArray.empty 100000
  let b : Scene := ⟨maxFrames, .callCode r meddling, { journal := j }⟩
  have starts : meddler.Starts (.code meddling ByteArray.empty) 100000 b := ⟨j, rfl, rfl⟩
  have hwealth : meddler.database.wealth = 0 :=
    Database.wealth_of_sole 1 { codeHash := 1, code := none } fun _ => rfl
  have hfunded : meddler.database.wealth < 2 ^ 256 := by
    rw [hwealth]
    decide
  have hgas : 100000 ≤ Amount.max := by decide
  have hproper : b.activity.Proper meddler := hgas
  have hK : ContractAddress.Distinct (meddler.creations b ∪ meddler.creations b) := by
    rw [Set.union_self, creations_of_harmless meddling_harmless]
    exact Set.injOn_empty _
  have settles : ∀ e, meddler.Reaches b e → e.session.journal.depth ≤ maxFrames ∧ e.Settles meddler :=
    fun e he => failed_frames_leave_no_trace meddler (.inl rfl) hfunded hgas starts .refl hproper he hK
  let start : Frame := .start (meddler.callInvocation r meddling) 100000
  let last (t : Session) := Machine.runFor (meddler.host (meddler.hostWithin 1024)) 11 ⟨start, t⟩
  have hfound : (meddler.openCall r (b.session.noting (.callOpened · 0x0a 100000)) >>= fun p =>
      (last p.2).map fun m => (p.1.toOption.isSome, m.frame.status,
        (m.world.journal.view .writer 0x0a).slots 0, m.world.events)) =
      .ok (true, .invalidOpcode, 1, [.callClosed 1 .writeInStaticCall 0, .callOpened 1 1 74101,
        .callOpened 0 0x0a 100000]) := by
    decide +kernel
  have hfailed : (meddler.callCode (meddler.hostWithin maxFrames) r meddling b.session).map
      (·.1.status) = .ok .invalidOpcode := by
    decide +kernel
  obtain ⟨⟨opened, u⟩, hopened, hlast⟩ := Except.bind_eq_ok hfound
  obtain ⟨m, hran, hends⟩ := Except.map_eq_ok hlast
  simp only [Prod.mk.injEq] at hends
  obtain ⟨hmark, hstatus, hslot, hevents⟩ := hends
  cases opened with
  | error status => cases hmark
  | ok mark =>
    have hreached : meddler.Reaches b ⟨1024, .step m.frame, m.world⟩ :=
      .head (.openCall hopened (by decide)) (reaches_of_runFor hran)
    obtain ⟨⟨reply, t⟩, hreply, hreplied⟩ := Except.map_eq_ok hfailed
    have hsettled := (settles b .refl).2.ok hreply
    have hvalues := hsettled.values (hreplied ▸ rfl)
    exact ⟨b, _, m.frame, reply, t, starts, hreached, rfl, hstatus, hslot, hevents, hreply, hreplied,
      hvalues, settles⟩

end Executor

end MeteredVM
