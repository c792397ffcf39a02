namespace MeteredVM

inductive Status where
  | running
  | stopped
  | returned
  | selfDestructed
  /-- Reverted with output, keeping its unspent gas. -/
  | reverted
  | tooDeep
  | outOfFunds
  | outOfGas
  /-- The gas does not cover a growth of memory. -/
  | memoryOutOfGas
  /-- A storage write with no more gas left than the stipend. -/
  | sentryOutOfGas
  /-- A price or a memory offset exceeds 64 bits. -/
  | gasOverflow
  | undefinedOpcode
  | valueInStaticCall
  | writeInStaticCall
  /-- The designated invalid opcode. -/
  | invalidOpcode
  | invalidJump
  /-- The opcode is not part of the rules. -/
  | notActivated
  | stackUnderflow
  | stackOverflow
  /-- A read past the end of the return data. -/
  | outOfOffset
  | createCollision
  /-- The receiver of a transfer would have too much. -/
  | balanceOverflow
  | nonceOverflow
  | codeTooLarge
  /-- The deployed code starts with the reserved byte. -/
  | codeStartsWithEF
  | initCodeTooLarge
  /-- The host could not supply the state. -/
  | hostFailure
  deriving DecidableEq, Repr

namespace Status

def all : List Status :=
  [running, stopped, returned, selfDestructed, reverted, tooDeep, outOfFunds, outOfGas,
   memoryOutOfGas, sentryOutOfGas, gasOverflow, undefinedOpcode, valueInStaticCall,
   writeInStaticCall, invalidOpcode, invalidJump, notActivated, stackUnderflow, stackOverflow,
   outOfOffset, createCollision, balanceOverflow, nonceOverflow, codeTooLarge, codeStartsWithEF,
   initCodeTooLarge, hostFailure]

def name : Status → String
  | running => "Continue"
  | stopped => "Stop"
  | returned => "Return"
  | selfDestructed => "SelfDestruct"
  | reverted => "Revert"
  | tooDeep => "CallTooDeep"
  | outOfFunds => "OutOfFund"
  | outOfGas => "OutOfGas"
  | memoryOutOfGas => "MemoryOOG"
  | sentryOutOfGas => "ReentrancySentryOOG"
  | gasOverflow => "GasUintOverflow"
  | undefinedOpcode => "OpcodeNotFound"
  | valueInStaticCall => "CallNotAllowedInsideStatic"
  | writeInStaticCall => "StateChangeDuringStaticCall"
  | invalidOpcode => "InvalidFEOpcode"
  | invalidJump => "InvalidJump"
  | notActivated => "NotActivated"
  | stackUnderflow => "StackUnderflow"
  | stackOverflow => "StackOverflow"
  | outOfOffset => "OutOfOffset"
  | createCollision => "CreateCollision"
  | balanceOverflow => "OverflowPayment"
  | nonceOverflow => "NonceOverflow"
  | codeTooLarge => "CreateContractSizeLimit"
  | codeStartsWithEF => "CreateContractStartingWithEF"
  | initCodeTooLarge => "CreateInitCodeSizeLimit"
  | hostFailure => "FatalExternalError"

def ofName? (s : String) : Option Status := all.find? (·.name == s)

def isOk : Status → Bool
  | running | stopped | returned | selfDestructed => true
  | _ => false

def isRevert : Status → Bool
  | reverted | tooDeep | outOfFunds => true
  | _ => false

def isError (s : Status) : Bool := !s.isOk && !s.isRevert

/-- Successes count from 0, reverts from 16 and errors from 80, each in the order of `all`. -/
def code : Status → Nat
  | running => 0
  | stopped => 1
  | returned => 2
  | selfDestructed => 3
  | reverted => 16
  | tooDeep => 17
  | outOfFunds => 18
  | outOfGas => 80
  | memoryOutOfGas => 81
  | sentryOutOfGas => 82
  | gasOverflow => 83
  | undefinedOpcode => 84
  | valueInStaticCall => 85
  | writeInStaticCall => 86
  | invalidOpcode => 87
  | invalidJump => 88
  | notActivated => 89
  | stackUnderflow => 90
  | stackOverflow => 91
  | outOfOffset => 92
  | createCollision => 93
  | balanceOverflow => 94
  | nonceOverflow => 95
  | codeTooLarge => 96
  | codeStartsWithEF => 97
  | initCodeTooLarge => 98
  | hostFailure => 99

end Status

inductive Success where
  | stop
  | returned
  | selfDestruct
  deriving DecidableEq, Repr

inductive Shortage where
  | basic
  | memory
  | sentry
  | overflow
  deriving DecidableEq, Repr

inductive Halt where
  | outOfGas (kind : Shortage)
  | undefinedOpcode
  | invalidOpcode
  | invalidJump
  | notActivated
  | stackUnderflow
  | stackOverflow
  | outOfOffset
  | createCollision
  | balanceOverflow
  | writeInStaticCall
  | valueInStaticCall
  | outOfFunds
  | tooDeep
  | nonceOverflow
  | codeTooLarge
  | codeStartsWithEF
  | initCodeTooLarge
  deriving DecidableEq, Repr

def Success.status : Success → Status
  | stop => .stopped
  | returned => .returned
  | selfDestruct => .selfDestructed

def Halt.status : Halt → Status
  | outOfGas .basic => .outOfGas
  | outOfGas .memory => .memoryOutOfGas
  | outOfGas .sentry => .sentryOutOfGas
  | outOfGas .overflow => .gasOverflow
  | undefinedOpcode => .undefinedOpcode
  | invalidOpcode => .invalidOpcode
  | invalidJump => .invalidJump
  | notActivated => .notActivated
  | stackUnderflow => .stackUnderflow
  | stackOverflow => .stackOverflow
  | outOfOffset => .outOfOffset
  | createCollision => .createCollision
  | balanceOverflow => .balanceOverflow
  | writeInStaticCall => .writeInStaticCall
  | valueInStaticCall => .valueInStaticCall
  | outOfFunds => .outOfFunds
  | tooDeep => .tooDeep
  | nonceOverflow => .nonceOverflow
  | codeTooLarge => .codeTooLarge
  | codeStartsWithEF => .codeStartsWithEF
  | initCodeTooLarge => .initCodeTooLarge

inductive Verdict where
  | success (reason : Success)
  | revert
  | halt (reason : Halt)
  /-- The host failed. -/
  | failure
  /-- The frame has not ended. -/
  | unfinished
  deriving DecidableEq, Repr

def Status.verdict : Status → Verdict
  | running => .unfinished
  | stopped => .success .stop
  | returned => .success .returned
  | selfDestructed => .success .selfDestruct
  | reverted => .revert
  | tooDeep => .halt .tooDeep
  | outOfFunds => .halt .outOfFunds
  | outOfGas => .halt (.outOfGas .basic)
  | memoryOutOfGas => .halt (.outOfGas .memory)
  | sentryOutOfGas => .halt (.outOfGas .sentry)
  | gasOverflow => .halt (.outOfGas .overflow)
  | undefinedOpcode => .halt .undefinedOpcode
  | valueInStaticCall => .halt .valueInStaticCall
  | writeInStaticCall => .halt .writeInStaticCall
  | invalidOpcode => .halt .invalidOpcode
  | invalidJump => .halt .invalidJump
  | notActivated => .halt .notActivated
  | stackUnderflow => .halt .stackUnderflow
  | stackOverflow => .halt .stackOverflow
  | outOfOffset => .halt .outOfOffset
  | createCollision => .halt .createCollision
  | balanceOverflow => .halt .balanceOverflow
  | nonceOverflow => .halt .nonceOverflow
  | codeTooLarge => .halt .codeTooLarge
  | codeStartsWithEF => .halt .codeStartsWithEF
  | initCodeTooLarge => .halt .initCodeTooLarge
  | hostFailure => .failure

namespace Verdict

def isSuccess : Verdict → Bool
  | success _ => true
  | _ => false

def isRevert : Verdict → Bool
  | revert => true
  | _ => false

def isHalt : Verdict → Bool
  | halt _ => true
  | _ => false

def status? : Verdict → Option Status
  | success reason => some reason.status
  | halt reason => some reason.status
  | _ => none

end Verdict

theorem Status.verdict_success {s : Status} {reason : Success} (h : s.verdict = .success reason) :
    reason.status = s := by
  cases s <;> cases h <;> rfl

theorem Status.verdict_halt {s : Status} {reason : Halt} (h : s.verdict = .halt reason) :
    reason.status = s := by
  cases s <;> cases h <;> rfl

inductive Outcome where
  | success (reason : Success)
  | revert
  | halt (reason : Halt)
  deriving DecidableEq, Repr

namespace Outcome

def isSuccess : Outcome → Bool
  | success _ => true
  | _ => false

def isHalt : Outcome → Bool
  | halt _ => true
  | _ => false

end Outcome

end MeteredVM
