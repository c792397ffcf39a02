import MeteredVM.Report
import MeteredVM.Report.Datum

namespace MeteredVM

def Success.word : Success → String
  | stop => "Stop"
  | returned => "Return"
  | selfDestruct => "SelfDestruct"

def Shortage.word : Shortage → String
  | basic => "Basic"
  | memory => "Memory"
  | sentry => "ReentrancySentry"
  | overflow => "GasUintOverflow"

def Halt.words : Halt → List String
  | outOfGas kind => ["OutOfGas", kind.word]
  | undefinedOpcode => ["OpcodeNotFound"]
  | invalidOpcode => ["InvalidFEOpcode"]
  | invalidJump => ["InvalidJump"]
  | notActivated => ["NotActivated"]
  | stackUnderflow => ["StackUnderflow"]
  | stackOverflow => ["StackOverflow"]
  | outOfOffset => ["OutOfOffset"]
  | createCollision => ["CreateCollision"]
  | balanceOverflow => ["OverflowPayment"]
  | writeInStaticCall => ["StateChangeDuringStaticCall"]
  | valueInStaticCall => ["CallNotAllowedInsideStatic"]
  | outOfFunds => ["OutOfFund"]
  | tooDeep => ["CallTooDeep"]
  | nonceOverflow => ["NonceOverflow"]
  | codeTooLarge => ["CreateContractSizeLimit"]
  | codeStartsWithEF => ["CreateContractStartingWithEF"]
  | initCodeTooLarge => ["CreateInitCodeSizeLimit"]

def Outcome.words : Outcome → List String
  | success reason => ["Success", reason.word]
  | revert => ["Revert"]
  | halt reason => "Halt" :: reason.words

def Verdict.words : Verdict → List String
  | success reason => (Outcome.success reason).words
  | revert => Outcome.revert.words
  | halt reason => (Outcome.halt reason).words
  | failure => ["FatalExternalError"]
  | unfinished => ["InternalContinue"]

def enclose : List String → String
  | [] => ""
  | [word] => word
  | word :: rest => word ++ "(" ++ enclose rest ++ ")"

def nest : List String → Datum
  | [] => .null
  | [word] => .text word
  | word :: rest => .object [(word, nest rest)]

def Bytes.render (b : Bytes) : String := "0x" ++ Hex.ofBytes b

def addressText (a : Address) : String := "0x" ++ Hex.digits 40 a.toNat

def hashText (h : Hash) : String := "0x" ++ Hex.digits 64 h.toNat

def Log.datum (l : Log) : Datum :=
  .object
    [("address", .text (addressText l.address)),
     ("topics", .list (l.topics.map fun topic => .text (hashText topic))),
     ("data", .text l.data.render)]

def Output.datum : Output → Datum
  | call data => .object [("Call", .text data.render)]
  | create data address =>
    .object
      [("Create", .list [.text data.render, address.elim .null fun a => .text (addressText a)])]

namespace Report

def datum (r : Report) : Datum :=
  .object
    [("outcome", nest r.outcome.words),
     ("output", r.output.datum),
     ("gas_limit", .number r.gasLimit),
     ("gas_remaining", .number r.gasRemaining),
     ("gas_used", .number r.gasUsed),
     ("refund", .number r.refund),
     ("refund_quotient", r.refundQuotient.elim .null .number),
     ("logs", .list (r.logs.map Log.datum))]

def text (r : Report) : Except Fault String := do
  let paid ← r.cappedRefund
  return "Outcome: " ++ enclose r.outcome.words ++ "\n" ++
    "Output: " ++ r.output.data.render ++ "\n" ++
    "Gas used: " ++ toString r.gasUsed ++ "\n" ++
    "Gas remaining: " ++ toString r.gasRemaining ++ "\n" ++
    "Refund: " ++ toString r.refund ++ " (paid " ++ toString paid ++ ")\n"

end Report

end MeteredVM
