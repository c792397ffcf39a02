import MeteredVM.ContractAddress
import MeteredVM.Frame.Run
import MeteredVM.Session.Basic

/-!
The frames of a transaction. A frame that can not be opened, or that fails, leaves the journal as
it was when the frame was opened. How many frames may still be opened inside of a frame is counted
down, so the nesting is a recursion on that number.
-/

namespace MeteredVM.Executor

open Session

def maxFrames : Nat := 1025

def runCode (h : Host Session) (invocation : Invocation) (gasLimit : Nat) : Nested Session Frame :=
  fun s => (Machine.run h ⟨.start invocation gasLimit, s⟩).map fun m => (m.frame, m.world)

def payCall (x : Executor) (r : CallRequest) : EStateM Status Session Unit := do
  require x.database r.source .hostFailure
  require x.database r.target .hostFailure
  modify fun s => { s with journal := s.journal.touch r.target }
  if !x.transfers.allows (← get).journal r.source r.value then throw .outOfFunds
  move x.transfers r.source r.target r.value

def callInvocation (x : Executor) (r : CallRequest) (code : Bytes) : Invocation where
  input := r.input
  code := .ofBytes code
  address := r.address
  caller := r.caller
  value := r.apparentValue
  isStatic := r.isStatic
  rules := x.rules

def openCall (x : Executor) (r : CallRequest) : Nested Session (Except Status Checkpoint) := do
  let mark ← checkpoint
  match ← attempt (x.payCall r) with
  | .ok _ => return .ok mark
  | .error status =>
    revert mark
    return .error status

def closeCall (mark : Checkpoint) (f : Frame) : Nested Session CallReply := do
  if f.status.isOk then commit else revert mark
  emit (.callClosed · f.status f.gas.remaining)
  return ⟨f.status, f.gas, ← f.outputData⟩

/-- Calls given code. Nested frames run on `inner`; without it the nesting is too deep. -/
def callCode (x : Executor) (inner : Option (Host Session)) (r : CallRequest) (code : Bytes) :
    Nested Session CallReply := do
  let refused (status : Status) : CallReply := ⟨status, .ofLimit r.gasLimit, ByteArray.empty⟩
  emit (.callOpened · r.codeAddress r.gasLimit)
  let some h := inner | return refused .tooDeep
  match ← x.openCall r with
  | .error status => return refused status
  | .ok mark =>
    if code.size = 0 then
      commit
      return refused .stopped
    else closeCall mark (← runCode h (x.callInvocation r code) r.gasLimit)

def call (x : Executor) (inner : Option (Host Session)) (r : CallRequest) :
    Nested Session CallReply := do
  match ← attempt (load (Journal.loadCode x.database r.codeAddress)) with
  | .ok code => x.callCode inner r code.value
  | .error _ => return ⟨.hostFailure, .ofLimit r.gasLimit, ByteArray.empty⟩

structure CreateRefusal where
  status : Status
  address : Option Address
  deriving DecidableEq, Repr

/-- Counts a creation: raises the nonce of a creator that can pay, and gives the one before. -/
def countCreation (x : Executor) (r : CreateRequest) : EStateM CreateRefusal Session Nat := do
  require x.database r.creator ⟨.hostFailure, none⟩
  if !x.transfers.allows (← get).journal r.creator r.value then throw ⟨.outOfFunds, none⟩
  let some (nonce, j) := (← get).journal.raiseNonce r.creator | throw ⟨.nonceOverflow, none⟩
  modify fun s => { s with journal := j }
  return nonce - 1

def createdAddress (r : CreateRequest) (nonce : Nat) : Address :=
  match r.salt with
  | some salt => ContractAddress.ofSalt r.creator salt r.initCode
  | none => ContractAddress.ofNonce r.creator nonce

def openCreate (x : Executor) (r : CreateRequest) :
    EStateM CreateRefusal Session (Address × Checkpoint) := do
  let address := createdAddress r (← x.countCreation r)
  require x.database address ⟨.hostFailure, some address⟩
  match (← get).journal.createCheckpoint address with
  | .ok (mark, j) =>
    modify fun s => { s with journal := j }
    return (address, mark)
  | .error status => throw ⟨status, some address⟩

def endowCreate (x : Executor) (r : CreateRequest) :
    Nested Session (Except CreateRefusal (Address × Checkpoint)) := do
  match ← attempt (x.openCreate r) with
  | .error why => return .error why
  | .ok (address, mark) =>
    match ← attempt (move x.transfers r.creator address r.value) with
    | .ok _ => return .ok (address, mark)
    | .error status =>
      revert mark
      return .error ⟨status, some address⟩

def createInvocation (x : Executor) (r : CreateRequest) (address : Address) : Invocation where
  code := .ofBytes r.initCode
  address := address
  caller := r.creator
  value := r.value
  rules := x.rules

/-- Checks code that is to be deployed and charges for storing it. Gives what is left of the gas
and the code that is stored: before Homestead an unpaid code is not stored, later its creation
fails. -/
def deposit (x : Executor) (gas : Gas) (code : Bytes) : Except Status (Gas × Bytes) :=
  if x.rules.has .eip3541 && code.data[0]? == some 0xef then .error .codeStartsWithEF
  else if x.rules.since .spuriousDragon && x.environment.chain.maxCode < code.size then
    .error .codeTooLarge
  else
    match (Price.codeDeposit code.size).bind gas.charge? with
    | some gas => .ok (gas, code)
    | none => if x.rules.since .homestead then .error .outOfGas else .ok (gas, ByteArray.empty)

def closeCreate (x : Executor) (address : Address) (mark : Checkpoint) (f : Frame) :
    Nested Session CreateReply := do
  if !f.status.isOk then
    revert mark
    return ⟨f.status, some address, f.gas, ← f.outputData⟩
  let output ← f.outputData
  match x.deposit f.gas output with
  | .ok (gas, code) =>
    commit
    modify fun s => { s with journal := s.journal.setCode address code }
    return ⟨f.status, some address, gas, code⟩
  | .error status =>
    revert mark
    return ⟨status, some address, f.gas.exhaust, output⟩

/-- Creates an account by running init code. Nested frames run on `inner`; without it the nesting
is too deep. -/
def create (x : Executor) (inner : Option (Host Session)) (r : CreateRequest) :
    Nested Session CreateReply := do
  let refused (why : CreateRefusal) : CreateReply :=
    ⟨why.status, why.address, .ofLimit r.gasLimit, ByteArray.empty⟩
  emit (.createOpened · r.creator r.gasLimit)
  let some h := inner | return refused ⟨.tooDeep, none⟩
  match ← x.endowCreate r with
  | .error why => return refused why
  | .ok (address, mark) =>
    let f ← runCode h (x.createInvocation r address) r.gasLimit
    let reply ← x.closeCreate address mark f
    emit (.createClosed · reply.status reply.address)
    return reply

def host (x : Executor) (inner : Option (Host Session)) : Host Session where
  environment := x.environment
  existence a := load (Journal.loadExistence x.database a)
  blockHash number := load (Journal.loadBlockHash x.database number)
  balance a := load do
    let found ← Journal.loadAccount x.database a
    return ⟨found.value.info.balance, found.cold⟩
  code a := load (Journal.loadCode x.database a)
  codeHash a := load do
    let found ← Journal.loadAccount x.database a
    return ⟨if found.value.info.isEmpty then 0 else found.value.info.codeHash, found.cold⟩
  readSlot a key := load (Journal.readSlot x.database a key)
  writeSlot a key new := load (Journal.writeSlot x.database a key new)
  selfDestruct a target := load (Journal.selfDestruct x.database a target)
  refund amount s := (s.journal.recordRefund amount).map fun j => { s with journal := j }
  log l s := { s with journal := s.journal.log l }
  call := x.call inner
  create := x.create inner

/-- The host of a frame when `room` more frames may be open than there are now, that frame
included; none if there is no room for it. -/
def hostWithin (x : Executor) : Nat → Option (Host Session)
  | 0 => none
  | room + 1 => some (x.host (x.hostWithin room))

end MeteredVM.Executor
