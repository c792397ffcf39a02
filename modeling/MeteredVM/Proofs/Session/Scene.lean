import MeteredVM.Proofs.Journal.Progress
import MeteredVM.Proofs.Session.Create
import MeteredVM.Transaction

namespace MeteredVM

open Relation

inductive Activity where
  | call (r : CallRequest)
  /-- A call whose code is at hand. -/
  | callCode (r : CallRequest) (code : Bytes)
  | create (r : CreateRequest)
  /-- The payment for a frame that has just been opened. -/
  | payment
  /-- A step of a frame. -/
  | step (f : Frame)

def Activity.ofRequest : Request → Activity
  | .call r _ => .call r
  | .create r => .create r

/-- A point of a transaction, at which at most `room` more frames may be opened. -/
structure Scene where
  room : Nat
  activity : Activity
  session : Session

namespace Executor

/-- How a transaction goes on. A nested frame is both entered and passed in one step of the frame
that asked for it. -/
inductive Next (x : Executor) : Scene → Scene → Prop
  | loadCode {room : Nat} {r : CallRequest} {s t : Session} {code : Loaded Bytes}
      (loaded : Session.load (Journal.loadCode x.database r.codeAddress) s = .ok code t) :
      Next x ⟨room, .call r, s⟩ ⟨room, .callCode r code.value, t⟩
  | payCall {room : Nat} {r : CallRequest} {code : Bytes} {s t : Session} {mark : Checkpoint}
      (opened : Session.checkpoint (s.noting (.callOpened · r.codeAddress r.gasLimit)) =
        .ok (mark, t)) :
      Next x ⟨room + 1, .callCode r code, s⟩ ⟨room, .payment, t⟩
  | openCall {room : Nat} {r : CallRequest} {code : Bytes} {s t : Session} {mark : Checkpoint}
      (opened : x.openCall r (s.noting (.callOpened · r.codeAddress r.gasLimit)) =
        .ok (.ok mark, t))
      (nonempty : code.size ≠ 0) :
      Next x ⟨room + 1, .callCode r code, s⟩
        ⟨room, .step (.start (x.callInvocation r code) r.gasLimit), t⟩
  | payCreate {room : Nat} {r : CreateRequest} {s t : Session} {address : Address}
      {mark : Checkpoint}
      (opened : x.openCreate r (s.noting (.createOpened · r.creator r.gasLimit)) =
        .ok (address, mark) t) :
      Next x ⟨room + 1, .create r, s⟩ ⟨room, .payment, t⟩
  | openCreate {room : Nat} {r : CreateRequest} {s t : Session} {address : Address}
      {mark : Checkpoint}
      (opened : x.endowCreate r (s.noting (.createOpened · r.creator r.gasLimit)) =
        .ok (.ok (address, mark), t)) :
      Next x ⟨room + 1, .create r, s⟩
        ⟨room, .step (.start (x.createInvocation r address) r.gasLimit), t⟩
  | step {room : Nat} {f : Frame} {s : Session} {n : Machine Session}
      (running : f.status = .running)
      (stepped : Machine.step (x.host (x.hostWithin room)) ⟨f, s⟩ = .ok n) :
      Next x ⟨room, .step f, s⟩ ⟨room, .step n.frame, n.world⟩
  | nest {room : Nat} {f : Frame} {s : Session} {r : Request} {n : Machine Session}
      (running : f.status = .running)
      (asking : Machine.Asking (x.host (x.hostWithin room)) ⟨f, s⟩ r n) :
      Next x ⟨room, .step f, s⟩ ⟨room, .ofRequest r, n.world⟩

def leaves (x : Executor) (c : Scene) : Except Fault Session :=
  match c.activity with
  | .call r => (x.call (x.hostWithin c.room) r c.session).map Prod.snd
  | .callCode r code => (x.callCode (x.hostWithin c.room) r code c.session).map Prod.snd
  | .create r => (x.create (x.hostWithin c.room) r c.session).map Prod.snd
  | .payment | .step _ => .ok c.session

abbrev Reaches (x : Executor) : Scene → Scene → Prop := ReflTransGen x.Next

def opening (x : Executor) (gasLimit : Nat) : Task → Activity
  | .code code input => .callCode (x.outerCall x.environment.tx.target input gasLimit) code
  | .call target input => .call (x.outerCall target input gasLimit)
  | .create initCode =>
    .create ⟨x.environment.tx.caller, none, x.environment.tx.value, initCode, gasLimit⟩

/-- The first point of a transaction, with the accounts loaded that are warm from the start. -/
def Starts (x : Executor) (task : Task) (gasLimit : Nat) (c : Scene) : Prop :=
  ∃ j, loadAll x.database (x.warm (x.targetOf task)) (.ofHardfork x.rules.hardfork) = .ok () j ∧
    c = ⟨maxFrames, x.opening gasLimit task, { journal := j }⟩

theorem loadAll_shows (db : Database) (accounts : List Address) (j : Journal) :
    Journal.Shows db (loadAll db accounts) j fun _ _ => True := by
  induction accounts generalizing j with
  | nil => exact .pure trivial
  | cons a rest ih =>
    apply Journal.Shows.bind (Journal.loadAccount_shows a j)
    intro _ k _
    exact ih k

/-- Before the first point of a transaction there are only looks. -/
theorem Starts.looks {x : Executor} {task : Task} {gasLimit : Nat} {c : Scene}
    (h : x.Starts task gasLimit c) :
    Journal.Looks x.database (.ofHardfork x.rules.hardfork) c.session.journal := by
  obtain ⟨j, hj, rfl⟩ := h
  have hshows := loadAll_shows x.database (x.warm (x.targetOf task)) (.ofHardfork x.rules.hardfork)
  exact (hshows.ok hj).1

theorem Starts.leaves {x : Executor} {task : Task} {gasLimit : Nat} {c : Scene} {e : Ended}
    {t : Session} (h : x.Starts task gasLimit c)
    (ran : x.runTask task gasLimit c.session = .ok (e, t)) : x.leaves c = .ok t := by
  obtain ⟨j, -, rfl⟩ := h
  cases task with
  | code | call | create =>
    obtain ⟨⟨reply, u⟩, hrun, hu⟩ := Except.bind_eq_ok ran
    cases hu
    exact congrArg (Except.map Prod.snd) hrun

theorem reaches_of_runFor {x : Executor} {room n : Nat} {m m' : Machine Session}
    (h : Machine.runFor (x.host (x.hostWithin room)) n m = .ok m') :
    x.Reaches ⟨room, .step m.frame, m.world⟩ ⟨room, .step m'.frame, m'.world⟩ := by
  induction n generalizing m with
  | zero =>
    cases h
    exact .refl
  | succ n ih =>
    by_cases running : m.frame.status = .running
    · rw [Machine.runFor_succ running] at h
      obtain ⟨l, stepped, h⟩ := Except.bind_eq_ok h
      exact .head (.step running stepped) (ih h)
    · rw [Machine.runFor_ended running] at h
      cases h
      exact .refl

inductive Counts (x : Executor) : Scene → Address × Nat → Prop
  | intro {room n : Nat} {r : CreateRequest} {s t : Session} (unsalted : r.salt = none)
      (counts : x.countCreation r (s.noting (.createOpened · r.creator r.gasLimit)) = .ok n t) :
      Counts x ⟨room, .create r, s⟩ (r.creator, n)

/-- The creators and nonces of all such creations from a point on. -/
def creations (x : Executor) (c : Scene) : Set (Address × Nat) :=
  { p | ∃ d, x.Reaches c d ∧ x.Counts d p }

variable {x : Executor} {c d : Scene} {p : Address × Nat}

theorem creations_of_counts (h : x.Counts c p) : p ∈ x.creations c := ⟨c, .refl, h⟩

theorem creations_subset (h : x.Reaches c d) : x.creations d ⊆ x.creations c := by
  rintro p ⟨e, hde, hp⟩
  exact ⟨e, h.trans hde, hp⟩

end Executor

/-- The gas of an activity is a 64-bit amount, and what else its frame has made sure of. -/
def Activity.Proper (x : Executor) : Activity → Prop
  | .call r => r.gasLimit ≤ Amount.max
  | .callCode r _ => r.gasLimit ≤ Amount.max
  | .create r => r.gasLimit ≤ Amount.max ∧ (r.salt.isSome → x.rules.since .constantinople = true)
  | .payment => True
  | .step f => f.Solid ∧ f.gas.remaining ≤ Amount.max ∧ f.invocation.rules = x.rules

structure Scene.Valid (x : Executor) (K : Set (Address × Nat)) (c : Scene) : Prop where
  depth : c.session.journal.depth + c.room = Executor.maxFrames
  hardfork : c.session.journal.hardfork = x.rules.hardfork
  sound : c.session.journal.Sound x.database K
  proper : c.activity.Proper x
  creations : x.creations c ⊆ K

namespace Scene

variable {x : Executor} {K : Set (Address × Nat)} {c d : Scene}

theorem Valid.next (hc : c.Valid x K) (hnext : x.Next c d)
    (hdepth : d.session.journal.depth + d.room = c.session.journal.depth + c.room)
    (hprogress : c.session.journal.Progress x.database K d.session.journal)
    (hproper : d.activity.Proper x) : d.Valid x K where
  depth := hdepth.trans hc.depth
  hardfork := hprogress.hardfork.trans hc.hardfork
  sound := hc.sound.progress hprogress
  proper := hproper
  creations := (Executor.creations_subset (.single hnext)).trans hc.creations

variable {room : Nat} {a b : Activity} {s t : Session}

/-- The next point is in the same frame, or about to enter another one. -/
theorem Valid.stays (hc : Valid x K ⟨room, a, s⟩) (hnext : x.Next ⟨room, a, s⟩ ⟨room, b, t⟩)
    (hdepth : t.journal.depth = s.journal.depth)
    (hprogress : s.journal.Progress x.database K t.journal) (hproper : b.Proper x) :
    Valid x K ⟨room, b, t⟩ := by
  apply hc.next hnext _ hprogress hproper
  simp only [hdepth]

theorem Valid.deepens (hc : Valid x K ⟨room + 1, a, s⟩)
    (hnext : x.Next ⟨room + 1, a, s⟩ ⟨room, b, t⟩)
    (hdepth : t.journal.depth = s.journal.depth + 1)
    (hprogress : s.journal.Progress x.database K t.journal) (hproper : b.Proper x) :
    Valid x K ⟨room, b, t⟩ := by
  apply hc.next hnext _ hprogress hproper
  simp only [hdepth]
  omega

end Scene

end MeteredVM
