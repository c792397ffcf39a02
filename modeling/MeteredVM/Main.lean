import MeteredVM.CommandLine.Command

def main (args : List String) : IO UInt32 := do
  match MeteredVM.CommandLine.answer args with
  | .ok text =>
    IO.print text
    return 0
  | .error failure =>
    IO.eprintln failure.message
    return if failure = .usage then 2 else 1
