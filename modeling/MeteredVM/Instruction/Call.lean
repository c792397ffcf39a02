import MeteredVM.Frame.Machine
import MeteredVM.Frame.Reply

namespace MeteredVM

/-- A frame that the host is asked to run. The output of a call goes to a range of memory. -/
inductive Request where
  | call (r : CallRequest) (into : Span)
  | create (r : CreateRequest)
  deriving DecidableEq

namespace Instruction

open Local Exec

variable {σ : Type}

def maxInitCode : Nat := 2 * Chain.standardCodeLimit

def initCode (offset : Word) (len : Nat) : Local Bytes := do
  if len = 0 then return ByteArray.empty
  if (← rules).has .eip3860 then
    ensure (len ≤ maxInitCode) .initCodeTooLarge
    pay (Price.initCode len)
  copyOut offset len

def create (salted : Bool) : Local Request := do
  mayWrite
  if salted then since .constantinople
  let (value, offset, len) ← pop3
  let salt ← if salted then some <$> pop1 else pure none
  let len ← amount len
  let code ← initCode offset len
  if salted then pay (Price.saltedCreation len) else charge Price.creation
  let f ← get
  let left := f.gas.remaining
  let given := if f.rules.since .tangerine then Price.allButOne64th left else left
  charge given
  return .create ⟨f.invocation.address, salt, value, code, given⟩

def reserve (offset len : Word) : Local Span := do
  let len ← amount len
  if len = 0 then return .empty
  let offset ← amount offset
  grow offset len
  return ⟨offset, offset + len⟩

def exchange : Local (Bytes × Span) := do
  let (sourceOffset, sourceLen, targetOffset, targetLen) ← pop4
  let source ← reserve sourceOffset sourceLen
  let input ← slice source.start source.length
  let target ← reserve targetOffset targetLen
  return (input, target)

def forward (found : Existence) (withValue : Bool) (requested : Word) : Local Nat := do
  charge (Price.call (← rules) withValue found.absent found.cold)
  let f ← get
  let given := Price.forwarded f.rules f.gas.remaining requested
  charge given
  return if withValue then Amount.addClamped given Price.stipend else given

/-- Asks for a call of code. The request is completed with the input and the gas. -/
def callWith (h : Host σ) (codeAddress : Address) (requested : Word) (withValue mayCreate : Bool)
    (request : Bytes → Nat → CallRequest) : Exec σ Request := do
  let (input, into) ← exchange
  let found ← ask (h.existence codeAddress)
  let given ← forward ⟨found.cold, mayCreate && found.absent⟩ withValue requested
  return .call (request input given) into

def call (h : Host σ) : Exec σ Request := do
  let (requested, callee, value) ← pop3
  let callee := callee.toAddress
  let self := (← (get : Local Frame)).invocation
  ensure (!(self.isStatic && value ≠ 0)) .valueInStaticCall
  callWith h callee requested (value ≠ 0) true fun input gas =>
    { codeAddress := callee
      source := self.address
      target := callee
      value := value
      input := input
      gasLimit := gas
      address := callee
      caller := self.address
      apparentValue := value
      isStatic := self.isStatic }

/-- Asks for a run of the code of an account on the caller's own account. -/
def callCode (h : Host σ) : Exec σ Request := do
  let (requested, callee, value) ← pop3
  let callee := callee.toAddress
  let self := (← (get : Local Frame)).invocation
  callWith h callee requested (value ≠ 0) false fun input gas =>
    { codeAddress := callee
      source := self.address
      target := self.address
      value := value
      input := input
      gasLimit := gas
      address := self.address
      caller := self.address
      apparentValue := value
      isStatic := self.isStatic }

def delegateCall (h : Host σ) : Exec σ Request := do
  since .homestead
  let (requested, callee) ← pop2
  let callee := callee.toAddress
  let self := (← (get : Local Frame)).invocation
  callWith h callee requested false false fun input gas =>
    { codeAddress := callee
      source := self.address
      target := self.address
      value := 0
      input := input
      gasLimit := gas
      address := self.address
      caller := self.caller
      apparentValue := self.value
      isStatic := self.isStatic }

def staticCall (h : Host σ) : Exec σ Request := do
  since .byzantium
  let (requested, callee) ← pop2
  let callee := callee.toAddress
  let self := (← (get : Local Frame)).invocation
  callWith h callee requested false false fun input gas =>
    { codeAddress := callee
      source := self.address
      target := callee
      value := 0
      input := input
      gasLimit := gas
      address := callee
      caller := self.address
      apparentValue := 0
      isStatic := true }

def serve (h : Host σ) : Request → Exec σ Unit
  | .call r into => do
    let reply ← nested (h.call r)
    takeCallReply reply into
  | .create r => do
    let reply ← nested (h.create r)
    takeCreateReply reply

def nest (h : Host σ) (request : Exec σ Request) : Exec σ Unit := do serve h (← request)

end Instruction

end MeteredVM
