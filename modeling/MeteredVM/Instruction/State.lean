import MeteredVM.Frame.Machine
import MeteredVM.Instruction.Data

namespace MeteredVM.Instruction

open Local Exec

variable {σ : Type}

def refund (h : Host σ) (amount : Int) : Exec σ Unit := nested fun world =>
  (h.refund amount world).map fun world => ((), world)

/-- Replaces an address on top of the stack by what the host knows of the account, for a price
that depends on whether the account is cold. -/
def inspect {α : Type} (query : Address → Query σ (Loaded α)) (price : Rules → Bool → Nat)
    (result : α → Word) : Exec σ Unit := do
  let found ← ask (query (← top1 : Word).toAddress)
  charge (price (← Local.rules) found.cold)
  setTop (result found.value)

def selfBalance (h : Host σ) : Exec σ Unit := do
  having .eip1884
  let found ← ask (h.balance (← (get : Local Frame)).invocation.address)
  push found.value

def blockHistory : Nat := 256

def blockHash (h : Host σ) : Exec σ Unit := do
  let requested := (← top1 : Word).clamp
  let current := h.environment.block.number.clamp
  if requested < current ∧ current - requested ≤ blockHistory then
    setTop (← ask (h.blockHash requested))
  else setTop 0

def codeHash (h : Host σ) : Exec σ Unit := do
  since .constantinople
  inspect h.codeHash Price.codeHash id

def extCodeCopy (h : Host σ) : Exec σ Unit := do
  let (account, memOffset, codeOffset, len) ← pop4
  let found ← ask (h.code account.toAddress)
  let r ← Local.rules
  copyData (fun len => Price.codeCopy r len found.cold) memOffset codeOffset len found.value

def slotLoad (h : Host σ) : Exec σ Unit := do
  let key ← top1
  let found ← ask (h.readSlot (← (get : Local Frame)).invocation.address key)
  charge (Price.slotRead (← Local.rules) found.cold)
  setTop found.value

def sentry : Local Unit := do
  let f ← get
  ensure (!(f.rules.hasSentry && f.gas.remaining ≤ Price.sentry)) .sentryOutOfGas

/-- Writes a slot. The write comes before its charge; a frame that can not pay it is undone. -/
def slotStore (h : Host σ) : Exec σ Unit := do
  mayWrite
  let (key, value) ← pop2
  sentry
  let change ← ask (h.writeSlot (← (get : Local Frame)).invocation.address key value)
  let r ← Local.rules
  charge (Price.slotWrite r change.value change.cold)
  refund h (Price.slotRefund r change.value)

def log (h : Host σ) (topics : Nat) : Exec σ Unit := do
  mayWrite
  let (offset, len) ← pop2
  let len ← amount len
  pay (Price.log topics len)
  let data ← if len = 0 then pure ByteArray.empty else copyOut offset len
  let topics ← pop topics
  tell (h.log ⟨(← (get : Local Frame)).invocation.address, List.ofFn topics, data⟩)

def selfDestruct (h : Host σ) : Exec σ Unit := do
  mayWrite
  let beneficiary ← pop1
  let found ← ask
    (h.selfDestruct (← (get : Local Frame)).invocation.address beneficiary.toAddress)
  let r ← Local.rules
  if !r.has .eip3529 && !found.value.again then refund h Price.selfDestructRefund
  charge (Price.selfDestruct r found.value.hadValue found.value.targetExists found.cold)
  halt .selfDestructed

end MeteredVM.Instruction
