/-! Characters of YAML texts and positions among them. A text is read after its usual line
breaks have become line feeds; the line and paragraph separators of Unicode are breaks too
and stay as they are. -/
namespace Reentrancy.Yaml

/-- Carriage returns, with or without a line feed, and next-line characters become line
feeds. -/
def unifyBreaks : List Char → List Char
  | [] => []
  | '\r' :: '\n' :: rest => '\n' :: unifyBreaks rest
  | c :: rest => (if c == '\r' || c == '\u0085' then '\n' else c) :: unifyBreaks rest

def isPrintable (c : Char) : Bool :=
  c == '\t' || c == '\n' || (0x20 ≤ c.toNat && c.toNat ≤ 0x7E) ||
    (0xA0 ≤ c.toNat && c.toNat ≠ 0xFFFE && c.toNat ≠ 0xFFFF)

def isBlank (c : Char) : Bool := c == ' ' || c == '\t'

def isBreak (c : Char) : Bool := c == '\n' || c == '\u2028' || c == '\u2029'

def endsWord : List Char → Bool
  | [] => true
  | c :: _ => isBlank c || isBreak c

def isMarker : List Char → Bool
  | '-' :: '-' :: '-' :: rest => endsWord rest
  | '.' :: '.' :: '.' :: rest => endsWord rest
  | _ => false

def isNameChar (c : Char) : Bool := c.isAlphanum || c == '_' || c == '-'

structure Cursor where
  rest : List Char
  line : Nat := 0
  column : Nat := 0

namespace Cursor

def along (cursor : Cursor) (rest : List Char) : Cursor :=
  { cursor with rest, column := cursor.column + (cursor.rest.length - rest.length) }

/-- Moves on to the line below, if the text does not end before it. Only blanks and a comment
may stand in between. -/
def below? (cursor : Cursor) : Option Cursor :=
  let blanks := cursor.rest.dropWhile isBlank
  let after := match blanks with
    | '#' :: comment => comment.dropWhile (!isBreak ·)
    | rest => rest
  match after with
  | [] => some (cursor.along [])
  | c :: rest => if isBreak c then some ⟨rest, cursor.line + 1, 0⟩ else none

end Cursor
end Reentrancy.Yaml
