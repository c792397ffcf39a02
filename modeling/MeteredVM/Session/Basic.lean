import MeteredVM.Host
import MeteredVM.Journal.Load
import MeteredVM.Transfer

/-!
The running of one transaction: its journal, the outage that aborts it, and a record of the frames
it opens and closes.
-/

namespace MeteredVM

/-- A frame was opened or closed, or the transaction was aborted. -/
inductive FrameEvent where
  | callOpened (depth : Nat) (callee : Address) (gasLimit : Nat)
  | callClosed (depth : Nat) (status : Status) (gasLeft : Nat)
  | createOpened (depth : Nat) (creator : Address) (gasLimit : Nat)
  | createClosed (depth : Nat) (status : Status) (address : Option Address)
  | aborted (status : Status)
  deriving DecidableEq, Repr

structure Session where
  journal : Journal
  /-- The latest outage of the database. -/
  failure : Option Outage := none
  /-- What happened, newest event first. -/
  events : List FrameEvent := []

structure Executor where
  environment : Environment
  rules : Rules
  database : Database
  transfers : TransferPolicy := .balances

namespace Session

def emit (event : Nat → FrameEvent) : Nested Session Unit :=
  modify fun s => { s with events := event s.journal.depth :: s.events }

def load {α : Type} (x : Loading α) : Query Session α := fun s =>
  match x s.journal with
  | .ok a j => .ok a { s with journal := j }
  | .error outage j => .error {} { s with journal := j, failure := some outage }

def onJournal (change : Journal → Except Fault Journal) : Nested Session Unit := fun s =>
  (change s.journal).map fun j => ((), { s with journal := j })

def checkpoint : Nested Session Checkpoint := fun s =>
  let (mark, j) := s.journal.checkpoint
  .ok (mark, { s with journal := j })

def commit : Nested Session Unit := onJournal Journal.commit

def revert (mark : Checkpoint) : Nested Session Unit := onJournal (·.revert mark)

/-- Tries something that may refuse to go on, and gives its answer or the refusal. What it did
before the refusal stays. -/
def attempt {ε α : Type} (x : EStateM ε Session α) : Nested Session (Except ε α) := fun s =>
  match x s with
  | .ok a s => .ok (.ok a, s)
  | .error e s => .ok (.error e, s)

def require {ε : Type} (db : Database) (a : Address) (refusal : ε) : EStateM ε Session Unit :=
  fun s =>
    match load (Journal.loadAccount db a) s with
    | .ok _ s => .ok () s
    | .error _ s => .error refusal s

def move (policy : TransferPolicy) (source target : Address) (value : Word) :
    EStateM Status Session Unit := fun s =>
  match policy.move source target value s.journal with
  | .ok _ j => .ok () { s with journal := j }
  | .error status j => .error status { s with journal := j }

end Session

end MeteredVM
