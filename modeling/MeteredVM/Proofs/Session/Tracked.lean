import Mathlib.Data.Finset.Image
import MeteredVM.Proofs.Journal.Warm
import MeteredVM.Proofs.Session.Scene

namespace MeteredVM

open Journal Executor Relation

structure Tracked where
  session : Session
  accessed : Finset AccessKey

def Loaded.withCold {α : Type} (found : Loaded α) (cold : Bool) : Loaded α :=
  { found with cold := cold }

def Existence.withCold (found : Existence) (cold : Bool) : Existence := { found with cold := cold }

namespace Tracked

variable {ε α β : Type}

section Steps

def lift (y : EStateM ε Session α) : EStateM ε Tracked α := fun t =>
  match y t.session with
  | .ok a s => .ok a { t with session := s }
  | .error e s => .error e { t with session := s }

def within (y : Nested Session α) : Nested Tracked α := fun t =>
  (y t.session).map fun (a, s) => (a, { t with session := s })

/-- The session accesses keys, one after the other. The answer says by the set whether the access to
`key` was cold. If a lookup fails, only the keys before it have been accessed. -/
def access (keys : List AccessKey) (key : AccessKey) (withCold : α → Bool → α)
    (q : Query Session α) : Query Tracked α := fun t =>
  match q t.session with
  | .ok a s => .ok (withCold a (key ∉ t.accessed)) ⟨s, t.accessed ∪ keys.toFinset⟩
  | .error e s => .error e ⟨s, t.accessed ∪ (reached keys s.journal).toFinset⟩

structure Mark where
  checkpoint : Checkpoint
  accessed : Finset AccessKey

def checkpoint : Nested Tracked Mark := do
  let accessed := (← get).accessed
  return ⟨← within Session.checkpoint, accessed⟩

/-- A frame fails: its changes are undone, and the set is what it was. -/
def revert (mark : Mark) : Nested Tracked Unit := do
  within (Session.revert mark.checkpoint)
  modify fun t => { t with accessed := mark.accessed }

def attempt (y : EStateM ε Tracked α) : Nested Tracked (Except ε α) := fun t =>
  match y t with
  | .ok a t => .ok (.ok a, t)
  | .error e t => .ok (.error e, t)

def loadCode (db : Database) (a : Address) : Query Tracked (Loaded Bytes) :=
  access [.account a] (.account a) .withCold (Session.load (Journal.loadCode db a))

def require (db : Database) (a : Address) (refusal : ε) : EStateM ε Tracked Unit := fun t =>
  match access [.account a] (.account a) .withCold (Session.load (loadAccount db a)) t with
  | .ok _ t => .ok () t
  | .error _ t => .error refusal t

end Steps

section Frames

variable (x : Executor)

def runCode (h : Host Tracked) (invocation : Invocation) (gasLimit : Nat) : Nested Tracked Frame :=
  fun t => (Machine.run h ⟨.start invocation gasLimit, t⟩).map fun m => (m.frame, m.world)

def payCall (r : CallRequest) : EStateM Status Tracked Unit := do
  require x.database r.source .hostFailure
  require x.database r.target .hostFailure
  lift do
    modify fun s => { s with journal := s.journal.touch r.target }
    if !x.transfers.allows (← get).journal r.source r.value then throw .outOfFunds
    Session.move x.transfers r.source r.target r.value

def openCall (r : CallRequest) : Nested Tracked (Except Status Mark) := do
  let mark ← checkpoint
  match ← attempt (payCall x r) with
  | .ok _ => return .ok mark
  | .error status =>
    revert mark
    return .error status

def closeCall (mark : Mark) (f : Frame) : Nested Tracked CallReply := do
  if f.status.isOk then within Session.commit else revert mark
  within (Session.emit (.callClosed · f.status f.gas.remaining))
  return ⟨f.status, f.gas, ← f.outputData⟩

def callCode (inner : Option (Host Tracked)) (r : CallRequest) (code : Bytes) :
    Nested Tracked CallReply := do
  let refused (status : Status) : CallReply := ⟨status, .ofLimit r.gasLimit, ByteArray.empty⟩
  within (Session.emit (.callOpened · r.codeAddress r.gasLimit))
  let some h := inner | return refused .tooDeep
  match ← openCall x r with
  | .error status => return refused status
  | .ok mark =>
    if code.size = 0 then
      within Session.commit
      return refused .stopped
    else closeCall mark (← runCode h (x.callInvocation r code) r.gasLimit)

def call (inner : Option (Host Tracked)) (r : CallRequest) : Nested Tracked CallReply := do
  match ← attempt (loadCode x.database r.codeAddress) with
  | .ok code => callCode x inner r code.value
  | .error _ => return ⟨.hostFailure, .ofLimit r.gasLimit, ByteArray.empty⟩

def countCreation (r : CreateRequest) : EStateM CreateRefusal Tracked Nat := do
  require x.database r.creator ⟨.hostFailure, none⟩
  lift do
    if !x.transfers.allows (← get).journal r.creator r.value then throw ⟨.outOfFunds, none⟩
    let some (nonce, j) := (← get).journal.raiseNonce r.creator | throw ⟨.nonceOverflow, none⟩
    modify fun s => { s with journal := j }
    return nonce - 1

def openCreate (r : CreateRequest) : EStateM CreateRefusal Tracked (Address × Mark) := do
  let address := createdAddress r (← countCreation x r)
  require x.database address ⟨.hostFailure, some address⟩
  let t ← get
  match t.session.journal.createCheckpoint address with
  | .ok (mark, j) =>
    lift (modify fun s => { s with journal := j })
    return (address, ⟨mark, t.accessed⟩)
  | .error status => throw ⟨status, some address⟩

def endowCreate (r : CreateRequest) :
    Nested Tracked (Except CreateRefusal (Address × Mark)) := do
  match ← attempt (openCreate x r) with
  | .error why => return .error why
  | .ok (address, mark) =>
    match ← attempt (lift (Session.move x.transfers r.creator address r.value)) with
    | .ok _ => return .ok (address, mark)
    | .error status =>
      revert mark
      return .error ⟨status, some address⟩

def closeCreate (address : Address) (mark : Mark) (f : Frame) : Nested Tracked CreateReply := do
  if !f.status.isOk then
    revert mark
    return ⟨f.status, some address, f.gas, ← f.outputData⟩
  let output ← f.outputData
  match x.deposit f.gas output with
  | .ok (gas, code) =>
    within Session.commit
    within (modify fun s => { s with journal := s.journal.setCode address code })
    return ⟨f.status, some address, gas, code⟩
  | .error status =>
    revert mark
    return ⟨status, some address, f.gas.exhaust, output⟩

def create (inner : Option (Host Tracked)) (r : CreateRequest) : Nested Tracked CreateReply := do
  let refused (why : CreateRefusal) : CreateReply :=
    ⟨why.status, why.address, .ofLimit r.gasLimit, ByteArray.empty⟩
  within (Session.emit (.createOpened · r.creator r.gasLimit))
  let some h := inner | return refused ⟨.tooDeep, none⟩
  match ← endowCreate x r with
  | .error why => return refused why
  | .ok (address, mark) =>
    let f ← runCode h (x.createInvocation r address) r.gasLimit
    let reply ← closeCreate x address mark f
    within (Session.emit (.createClosed · reply.status reply.address))
    return reply

/-- The host of a frame, with the keys that its accesses go to. -/
def host (inner : Option (Host Tracked)) : Host Tracked :=
  let h := x.host none
  { environment := x.environment
    existence := fun a => access [.account a] (.account a) .withCold (h.existence a)
    blockHash := fun number => lift (h.blockHash number)
    balance := fun a => access [.account a] (.account a) .withCold (h.balance a)
    code := fun a => loadCode x.database a
    codeHash := fun a => access [.account a] (.account a) .withCold (h.codeHash a)
    readSlot := fun a key =>
      access [.account a, .slot a key] (.slot a key) .withCold (h.readSlot a key)
    writeSlot := fun a key new =>
      access [.account a, .slot a key] (.slot a key) .withCold (h.writeSlot a key new)
    selfDestruct := fun a target =>
      access [.account target, .account a] (.account target) .withCold (h.selfDestruct a target)
    refund := fun amount t => (h.refund amount t.session).map fun s => { t with session := s }
    log := fun l t => { t with session := h.log l t.session }
    call := call x inner
    create := create x inner }

def hostWithin : Nat → Option (Host Tracked)
  | 0 => none
  | room + 1 => some (host x (hostWithin room))

end Frames

def noting (t : Tracked) (event : Nat → FrameEvent) : Tracked :=
  { t with session := t.session.noting event }

def initial (x : Executor) (task : Task) : Finset AccessKey :=
  {.account x.environment.tx.caller, .account x.environment.tx.origin} ∪
    (x.targetOf task).toFinset.image .account ∪
    if x.rules.has .eip3651 then {.account x.environment.block.coinbase} else ∅

/-- A point of a transaction that keeps account of its accesses. -/
structure Point where
  room : Nat
  activity : Activity
  tracked : Tracked

def Point.scene (p : Point) : Scene := ⟨p.room, p.activity, p.tracked.session⟩

inductive Next (x : Executor) : Point → Point → Prop
  | loadCode {room : Nat} {r : CallRequest} {t u : Tracked} {code : Loaded Bytes}
      (loaded : loadCode x.database r.codeAddress t = .ok code u) :
      Next x ⟨room, .call r, t⟩ ⟨room, .callCode r code.value, u⟩
  | payCall {room : Nat} {r : CallRequest} {code : Bytes} {t u : Tracked} {mark : Mark}
      (opened : checkpoint (t.noting (.callOpened · r.codeAddress r.gasLimit)) = .ok (mark, u)) :
      Next x ⟨room + 1, .callCode r code, t⟩ ⟨room, .payment, u⟩
  | openCall {room : Nat} {r : CallRequest} {code : Bytes} {t u : Tracked} {mark : Mark}
      (opened : openCall x r (t.noting (.callOpened · r.codeAddress r.gasLimit)) =
        .ok (.ok mark, u))
      (nonempty : code.size ≠ 0) :
      Next x ⟨room + 1, .callCode r code, t⟩
        ⟨room, .step (.start (x.callInvocation r code) r.gasLimit), u⟩
  | payCreate {room : Nat} {r : CreateRequest} {t u : Tracked} {address : Address} {mark : Mark}
      (opened : openCreate x r (t.noting (.createOpened · r.creator r.gasLimit)) =
        .ok (address, mark) u) :
      Next x ⟨room + 1, .create r, t⟩ ⟨room, .payment, u⟩
  | openCreate {room : Nat} {r : CreateRequest} {t u : Tracked} {address : Address} {mark : Mark}
      (opened : endowCreate x r (t.noting (.createOpened · r.creator r.gasLimit)) =
        .ok (.ok (address, mark), u)) :
      Next x ⟨room + 1, .create r, t⟩
        ⟨room, .step (.start (x.createInvocation r address) r.gasLimit), u⟩
  | step {room : Nat} {f : Frame} {t : Tracked} {n : Machine Tracked}
      (running : f.status = .running)
      (stepped : Machine.step (host x (hostWithin x room)) ⟨f, t⟩ = .ok n) :
      Next x ⟨room, .step f, t⟩ ⟨room, .step n.frame, n.world⟩
  | nest {room : Nat} {f : Frame} {t : Tracked} {r : Request} {n : Machine Tracked}
      (running : f.status = .running)
      (asking : Machine.Asking (host x (hostWithin x room)) ⟨f, t⟩ r n) :
      Next x ⟨room, .step f, t⟩ ⟨room, .ofRequest r, n.world⟩

abbrev Reaches (x : Executor) : Point → Point → Prop := ReflTransGen (Next x)

def leaves (x : Executor) (p : Point) : Except Fault Tracked :=
  match p.activity with
  | .call r => (call x (hostWithin x p.room) r p.tracked).map Prod.snd
  | .callCode r code => (callCode x (hostWithin x p.room) r code p.tracked).map Prod.snd
  | .create r => (create x (hostWithin x p.room) r p.tracked).map Prod.snd
  | .payment | .step _ => .ok p.tracked

end Tracked

end MeteredVM
