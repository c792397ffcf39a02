namespace MeteredVM

inductive Datum where
  | null
  | number (n : Nat)
  | text (s : String)
  | list (items : List Datum)
  | object (fields : List (String × Datum))

namespace Datum

def quoted (s : String) : String := "\"" ++ s ++ "\""

/-- Items on lines of their own between two brackets; nothing between them if there are none. -/
def block (left right : String) (indent : Nat) (items : List String) : String :=
  if items.isEmpty then left ++ right
  else
    let line (depth : Nat) : String := "\n" ++ "".pushn ' ' depth
    left ++ ",".intercalate (items.map (line (indent + 2) ++ ·)) ++ line indent ++ right

mutual

def render (indent : Nat) : Datum → String
  | null => "null"
  | number n => toString n
  | text s => quoted s
  | list items => block "[" "]" indent (renderItems (indent + 2) items)
  | object fields => block "\x7b" "\x7d" indent (renderFields (indent + 2) fields)

def renderItems (indent : Nat) : List Datum → List String
  | [] => []
  | item :: rest => item.render indent :: renderItems indent rest

def renderFields (indent : Nat) : List (String × Datum) → List String
  | [] => []
  | (name, value) :: rest =>
    (quoted name ++ ": " ++ value.render indent) :: renderFields indent rest

end

end Datum

end MeteredVM
