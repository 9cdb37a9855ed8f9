import Reentrancy.Text.Hexadecimal
import Reentrancy.Yaml.Cursor

/-! YAML scalars: plain texts and texts in single or double quotes. A text may go on in
further lines; a line break inside it becomes a blank and empty lines become line breaks. -/
namespace Reentrancy.Yaml

inductive Style where
  | plain
  | quoted
  | literal
  | folded
deriving DecidableEq, Repr

structure Scalar where
  text : String
  style : Style
deriving DecidableEq, Repr

def Scalar.absent : Scalar := ⟨"", .plain⟩

/-- What stands between two words of a text: blanks of one line, or a line break and the
breaks of empty lines after it. An escaped first break leaves nothing behind. All is kept
backwards. -/
inductive Gap where
  | blanks (reversed : List Char)
  | lines (first : Option Char) (empty : List Char)

namespace Gap

/-- Puts the gap on a text that is kept backwards. A line feed is folded, other breaks are
not. -/
def close (text : List Char) : Gap → List Char
  | blanks reversed => reversed ++ text
  | lines (some '\n') [] => ' ' :: text
  | lines (some '\n') empty => empty ++ text
  | lines first empty => empty ++ first.toList ++ text

def blank (c : Char) : Gap → Gap
  | blanks reversed => blanks (c :: reversed)
  | gap => gap

def newline (c : Char) : Gap → Gap
  | blanks _ => lines (some c) []
  | lines first empty => lines first (c :: empty)

def isLines : Gap → Bool
  | blanks _ => false
  | lines .. => true

def isNone : Gap → Bool
  | blanks [] => true
  | _ => false

end Gap

/-! ## Plain -/

def isFlowSign (c : Char) : Bool := ",[]\x7b\x7d".toList.contains c

def startsPlain (flow : Bool) : List Char → Bool
  | [] => false
  | c :: rest =>
    if c == '-' then !endsWord rest
    else if c == '?' || c == ':' then !flow && !endsWord rest
    else !(isBlank c || isBreak c || "#&*!|>'\"%@\x60".toList.contains c || isFlowSign c)

/-- The rest of a plain text, kept backwards. Outside brackets it goes on only in lines
indented by `indent` or more; it ends before `: `, before a comment and, in brackets, before
their signs. The flag tells whether it ended in a later line than its last word. -/
def plain (flow : Bool) (indent : Nat) (text : List Char) (gap : Gap) (line column : Nat) :
    List Char → Option (List Char × Bool × Cursor)
  | [] => some (text, gap.isLines, ⟨[], line, column⟩)
  | c :: rest =>
    let stop := some (text, gap.isLines, ⟨c :: rest, line, column⟩)
    if isBlank c then
      if c == '\t' && gap.isLines && column < indent then none
      else plain flow indent text (gap.blank c) line (column + 1) rest
    else if isBreak c then plain flow indent text (gap.newline c) (line + 1) 0 rest
    else if gap.isLines &&
        ((!flow && column < indent) || (column == 0 && isMarker (c :: rest))) then stop
    else if c == '#' && !gap.isNone then stop
    else if flow && c == ':' &&
        (rest.head?.any fun after => isFlowSign after || after == '?') then none
    else if (c == ':' && endsWord rest) || (flow && isFlowSign c) then stop
    else plain flow indent (c :: gap.close text) (.blanks []) line (column + 1) rest

/-! ## Quoted -/

/-- The rest of a text in single quotes; a quote inside is written twice. -/
def single (text : List Char) (gap : Gap) (line column : Nat) :
    List Char → Option (List Char × Cursor)
  | [] => none
  | '\'' :: '\'' :: rest => single ('\'' :: gap.close text) (.blanks []) line (column + 2) rest
  | '\'' :: rest => some (gap.close text, ⟨rest, line, column + 1⟩)
  | c :: rest =>
    if isBlank c then single text (gap.blank c) line (column + 1) rest
    else if isBreak c then
      if isMarker rest then none else single text (gap.newline c) (line + 1) 0 rest
    else single (c :: gap.close text) (.blanks []) line (column + 1) rest

def escapes : List (Char × Char) :=
  [('0', '\x00'), ('a', '\x07'), ('b', '\x08'), ('t', '\t'), ('\t', '\t'), ('n', '\n'),
    ('v', '\x0b'), ('f', '\x0c'), ('r', '\r'), ('e', '\x1b'), (' ', ' '), ('"', '"'), ('/', '/'),
    ('\\', '\\'), ('N', '\u0085'), ('_', '\u00a0'), ('L', '\u2028'), ('P', '\u2029')]

def coded? (digits : List Char) : Option Char :=
  (Text.hex? digits).bind fun code =>
    if code.isValidChar then some (Char.ofNat code) else none

def double (text : List Char) (gap : Gap) (line column : Nat) :
    List Char → Option (List Char × Cursor)
  | [] => none
  | '"' :: rest => some (gap.close text, ⟨rest, line, column + 1⟩)
  | '\\' :: 'x' :: a :: b :: rest =>
    match coded? [a, b] with
    | some c => double (c :: gap.close text) (.blanks []) line (column + 4) rest
    | none => none
  | '\\' :: 'u' :: a :: b :: c :: d :: rest =>
    match coded? [a, b, c, d] with
    | some c => double (c :: gap.close text) (.blanks []) line (column + 6) rest
    | none => none
  | '\\' :: 'U' :: a :: b :: c :: d :: e :: f :: g :: h :: rest =>
    match coded? [a, b, c, d, e, f, g, h] with
    | some c => double (c :: gap.close text) (.blanks []) line (column + 10) rest
    | none => none
  | '\\' :: name :: rest =>
    if isBreak name then
      if isMarker rest then none else double (gap.close text) (.lines none []) (line + 1) 0 rest
    else
      match escapes.lookup name with
      | some c => double (c :: gap.close text) (.blanks []) line (column + 2) rest
      | none => none
  | c :: rest =>
    if isBlank c then double text (gap.blank c) line (column + 1) rest
    else if isBreak c then
      if isMarker rest then none else double text (gap.newline c) (line + 1) 0 rest
    else double (c :: gap.close text) (.blanks []) line (column + 1) rest

end Reentrancy.Yaml
