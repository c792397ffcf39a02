namespace MeteredVM.CommandLine

inductive Token where
  | positional (value : String)
  | flag (name : String)
  | option (name value : String)
  deriving DecidableEq, Repr

structure Grammar where
  flags : List String
  valued : List String

def isValue (s : String) : Bool := s == "-" || s.toList.head? != some '-'

def longOption? (s : String) : Option (String × Option String) :=
  match s.toList with
  | '-' :: '-' :: body =>
    let name := String.ofList (body.takeWhile (· ≠ '='))
    match body.dropWhile (· ≠ '=') with
    | [] => some (name, none)
    | _ :: value => some (name, some (String.ofList value))
  | _ => none

def Grammar.tokens? (g : Grammar) : List String → Option (List Token)
  | [] => some []
  | arg :: rest =>
    if arg = "--" then some (rest.map .positional)
    else if isValue arg then (g.tokens? rest).map (.positional arg :: ·)
    else
      match longOption? arg with
      | none => none
      | some (name, some value) =>
        if name ∈ g.valued then (g.tokens? rest).map (.option name value :: ·) else none
      | some (name, none) =>
        if name ∈ g.flags then (g.tokens? rest).map (.flag name :: ·)
        else if name ∈ g.valued then
          match rest with
          | value :: rest =>
            if isValue value then (g.tokens? rest).map (.option name value :: ·) else none
          | [] => none
        else none

def positionals (tokens : List Token) : List String :=
  tokens.filterMap fun
    | .positional value => some value
    | _ => none

def values (tokens : List Token) (name : String) : List String :=
  tokens.filterMap fun
    | .option n value => if n = name then some value else none
    | _ => none

end MeteredVM.CommandLine
