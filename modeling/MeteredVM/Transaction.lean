import MeteredVM.Report
import MeteredVM.Session.Frames

namespace MeteredVM

inductive Task where
  /-- Runs code as the target of the transaction, where it need not be deployed. -/
  | code (code input : Bytes)
  | call (target : Address) (input : Bytes)
  | create (initCode : Bytes)
  deriving DecidableEq

inductive Abort where
  | database (outage : Outage)
  /-- The outermost frame ended in a way that means nothing. -/
  | unexpected (s : Status)
  deriving DecidableEq, Repr

def Abort.message : Abort → String
  | database outage => "database error: " ++ outage.reason
  | unexpected s => "execution ended with unexpected result " ++ s.name

structure Transacted where
  result : Except Abort (Report × Accounts)
  /-- What happened, oldest event first. -/
  events : List FrameEvent

namespace Executor

structure Ended where
  status : Status
  gas : Gas
  output : Output

def warm (x : Executor) (target : Option Address) : List Address :=
  [x.environment.tx.caller, x.environment.tx.origin] ++ target.toList ++
    if x.rules.has .eip3651 then [x.environment.block.coinbase] else []

def loadAll (db : Database) : List Address → Loading Unit
  | [] => pure ()
  | a :: rest => do
    let _ ← Journal.loadAccount db a
    loadAll db rest

/-- The call that a transaction makes. -/
def outerCall (x : Executor) (target : Address) (input : Bytes) (gasLimit : Nat) : CallRequest where
  codeAddress := target
  source := x.environment.tx.caller
  target := target
  value := x.environment.tx.value
  input := input
  gasLimit := gasLimit
  address := target
  caller := x.environment.tx.caller
  apparentValue := x.environment.tx.value
  isStatic := false

def targetOf (x : Executor) : Task → Option Address
  | .code _ _ => some x.environment.tx.target
  | .call target _ => some target
  | .create _ => none

def runTask (x : Executor) (task : Task) (gasLimit : Nat) : Nested Session Ended := do
  let inner := x.hostWithin maxFrames
  match task with
  | .code code input =>
    let reply ← x.callCode inner (x.outerCall x.environment.tx.target input gasLimit) code
    return ⟨reply.status, reply.gas, .call reply.output⟩
  | .call target input =>
    let reply ← x.call inner (x.outerCall target input gasLimit)
    return ⟨reply.status, reply.gas, .call reply.output⟩
  | .create initCode =>
    let reply ← x.create inner
      ⟨x.environment.tx.caller, none, x.environment.tx.value, initCode, gasLimit⟩
    return ⟨reply.status, reply.gas,
      .create reply.output (if reply.status.isOk then reply.address else none)⟩

def report (x : Executor) (e : Ended) (outcome : Outcome) (refund : Int) (logs : List Log) :
    Except Fault Report := do
  let used ← e.gas.spent
  return {
    outcome := outcome
    output := match outcome with
      | .halt _ => e.output.cleared
      | _ => e.output
    gasLimit := e.gas.limit
    gasRemaining := e.gas.remaining
    gasUsed := used
    refund := if e.status.isOk then refund.toNat else 0
    refundQuotient := if x.environment.chain.uncappedRefund then none else some x.rules.refundQuotient
    logs := logs }

def conclude (x : Executor) (e : Ended) (s : Session) : Except Fault Transacted := do
  let (accounts, logs) := s.journal.finalize.1
  match s.failure with
  | some outage =>
    return ⟨.error (.database outage), (FrameEvent.aborted e.status :: s.events).reverse⟩
  | none =>
    match e.status.verdict.outcome? with
    | none => return ⟨.error (.unexpected e.status), s.events.reverse⟩
    | some outcome =>
      let report ← x.report e outcome s.journal.refund logs
      return ⟨.ok (report, accounts), s.events.reverse⟩

def transact (x : Executor) (task : Task) (gasLimit : Nat) : Except Fault Transacted := do
  match loadAll x.database (x.warm (x.targetOf task)) (.ofHardfork x.rules.hardfork) with
  | .error outage _ => return ⟨.error (.database outage), []⟩
  | .ok _ j =>
    let (e, s) ← x.runTask task gasLimit { journal := j }
    x.conclude e s

end Executor

end MeteredVM
