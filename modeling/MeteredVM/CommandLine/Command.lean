import MeteredVM.CommandLine.Blank
import MeteredVM.CommandLine.Number
import MeteredVM.CommandLine.Token
import MeteredVM.Report.Text
import MeteredVM.Store
import MeteredVM.Transaction

namespace MeteredVM.CommandLine

structure RunOptions where
  code : String
  input : String := ""
  gasLimit : Nat := 1000000
  hardfork : String := "Latest"
  eips : List Nat := []
  asJson : Bool := false
  deriving DecidableEq, Repr

inductive Command where
  | run (options : RunOptions)
  | memoryCost (size : Nat)
  deriving DecidableEq, Repr

inductive Failure where
  /-- The arguments make no command. -/
  | usage
  | invalidCode
  | invalidInput
  | unknownHardfork (name : String)
  | unsupported (e : UnsupportedEip)
  | aborted (why : Abort)
  | sizeTooLarge (size : Nat)
  | fault (f : Fault)
  deriving DecidableEq, Repr

def Failure.message : Failure → String
  | usage => "usage: run CODE [--input HEX] [--gas-limit N] [--spec NAME] [--eips N,...] [--json]" ++
      " | memory-cost SIZE"
  | invalidCode => "invalid bytecode"
  | invalidInput => "invalid input"
  | unknownHardfork name => "unknown hardfork " ++ name
  | unsupported e => e.message
  | aborted why => why.message
  | sizeTooLarge size => "memory size " ++ toString size ++ " is past the limit"
  | fault _ => "arithmetic fault"

def commandNames : List String := ["run", "memory-cost", "help"]

def commandName? (s : String) : Option String :=
  match commandNames.filter fun name => s.toList.isPrefixOf name.toList with
  | [name] => some name
  | _ => none

def single (tokens : List Token) (name default : String) : Option String :=
  match values tokens name with
  | [] => some default
  | [value] => some value
  | _ => none

def RunOptions.ofArgs? (args : List String) : Option RunOptions := do
  let tokens ← Grammar.tokens? ⟨["json"], ["input", "gas-limit", "spec", "eips"]⟩ args
  let [code] := positionals tokens | none
  let input ← single tokens "input" ""
  let gasLimit ← amount? (← single tokens "gas-limit" "1000000")
  let hardfork ← single tokens "spec" "Latest"
  let eips ← ((values tokens "eips").flatMap (·.splitOn ",")).mapM proposal?
  let flags := tokens.count (.flag "json")
  if flags ≤ 1 then some ⟨code, input, gasLimit, hardfork, eips, flags == 1⟩ else none

def Command.ofArgs? : List String → Option Command
  | [] => none
  | name :: args =>
    match commandName? name with
    | some "run" => (RunOptions.ofArgs? args).map .run
    | some "memory-cost" => do
      let [size] := positionals (← Grammar.tokens? ⟨[], []⟩ args) | none
      return .memoryCost (← size? size)
    | _ => none

def hexArg? (s : String) : Option Bytes :=
  match Blank.trim s.toList with
  | '0' :: 'x' :: digits | '0' :: 'X' :: digits => Hex.toBytes? digits
  | digits => Hex.toBytes? digits

def caller : Address := 0xca

def target : Address := 0xaa

def RunOptions.rules (o : RunOptions) : Except Failure Rules :=
  match Hardfork.ofName? o.hardfork with
  | none => .error (.unknownHardfork o.hardfork)
  | some fork => ((Rules.ofHardfork fork).enableAll o.eips).mapError .unsupported

def RunOptions.report (o : RunOptions) : Except Failure Report := do
  let some code := hexArg? o.code | throw .invalidCode
  let some input := hexArg? o.input | throw .invalidInput
  let rules ← o.rules
  let x : Executor :=
    { environment := { tx := { caller := caller, origin := caller, target := target } }
      rules := rules
      database := Store.empty.toDatabase }
  let transacted ← (x.transact (.code code input) o.gasLimit).mapError .fault
  let (report, _) ← transacted.result.mapError .aborted
  return report

def Command.answer : Command → Except Failure String
  | run o => do
    let report ← o.report
    if o.asJson then return report.datum.render 0 ++ "\n" else report.text.mapError .fault
  | memoryCost size =>
    match Price.growth 0 size with
    | .error _ => .error (.sizeTooLarge size)
    | .ok growth => .ok (toString (growth.elim 0 (·.price)) ++ "\n")

def answer (args : List String) : Except Failure String :=
  match Command.ofArgs? args with
  | some command => command.answer
  | none => .error .usage

end MeteredVM.CommandLine
