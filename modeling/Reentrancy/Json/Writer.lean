import Reentrancy.Json.Value

/-! JSON text: one compact form, and one with an indent of two blanks for reports. Fields
are written in the order in which the value holds them. -/
namespace Reentrancy.Json

def hexChar (digit : Nat) : Char := Nat.digitChar digit

/-- Quote, backslash and control characters are escaped, all else is written as it is. -/
def escaped (c : Char) : List Char :=
  match c with
  | '"' => ['\\', '"']
  | '\\' => ['\\', '\\']
  | '\x08' => ['\\', 'b']
  | '\x0c' => ['\\', 'f']
  | '\n' => ['\\', 'n']
  | '\r' => ['\\', 'r']
  | '\t' => ['\\', 't']
  | c =>
    if c.toNat < 0x20 then
      ['\\', 'u', '0', '0', hexChar (c.toNat / 16), hexChar (c.toNat % 16)]
    else [c]

def quote (text : String) : String :=
  "\"" ++ String.ofList (text.toList.flatMap escaped) ++ "\""

mutual

def compact : Json → String
  | null => "null"
  | bool value => if value then "true" else "false"
  | int value => toString value
  | real digits => digits
  | text value => quote value
  | list items => "[" ++ ",".intercalate (compactItems items) ++ "]"
  | object fields => "\x7b" ++ ",".intercalate (compactFields fields) ++ "\x7d"

def compactItems : List Json → List String
  | [] => []
  | item :: rest => compact item :: compactItems rest

def compactFields : List (String × Json) → List String
  | [] => []
  | (key, value) :: rest => (quote key ++ ":" ++ compact value) :: compactFields rest

end

def newline (depth : Nat) : String := "\n" ++ String.ofList (List.replicate (2 * depth) ' ')

mutual

def indented (depth : Nat) : Json → String
  | list [] => "[]"
  | object [] => "\x7b\x7d"
  | list (item :: rest) =>
    "[" ++ ",".intercalate (indentedItems (depth + 1) (item :: rest)) ++ newline depth ++ "]"
  | object (field :: rest) =>
    "\x7b" ++ ",".intercalate (indentedFields (depth + 1) (field :: rest)) ++ newline depth ++
      "\x7d"
  | value => compact value

def indentedItems (depth : Nat) : List Json → List String
  | [] => []
  | item :: rest => (newline depth ++ indented depth item) :: indentedItems depth rest

def indentedFields (depth : Nat) : List (String × Json) → List String
  | [] => []
  | (key, value) :: rest =>
    (newline depth ++ quote key ++ ": " ++ indented depth value) :: indentedFields depth rest

end

def pretty (value : Json) : String := indented 0 value

end Reentrancy.Json
