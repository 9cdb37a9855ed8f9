import Reentrancy.Yaml.Scalar

/-! YAML scalars that are written as an indented block of lines, literal after a bar and
folded after a greater sign. -/
namespace Reentrancy.Yaml

inductive Chomping where
  | strip
  | clip
  | keep
deriving DecidableEq, Repr

namespace Chomping

def ofSign? : Char → Option Chomping
  | '-' => some strip
  | '+' => some keep
  | _ => none

end Chomping

/-- What stands behind the sign that opens a block: a chomping and, counted from the lines
around it, an indentation. -/
structure BlockHeader where
  chomping : Chomping := .clip
  indentation : Option Nat := none

def indentation? (c : Char) : Option Nat :=
  if '1' ≤ c ∧ c ≤ '9' then some (c.toNat - '0'.toNat) else none

/-- The two parts of a header come in either order. -/
def blockHeader (text : List Char) : BlockHeader × List Char :=
  match text with
  | [] => ({}, [])
  | first :: rest =>
    match Chomping.ofSign? first, indentation? first with
    | some chomping, _ =>
      match rest with
      | digit :: after => match indentation? digit with
        | some indentation => (⟨chomping, some indentation⟩, after)
        | none => (⟨chomping, none⟩, rest)
      | [] => (⟨chomping, none⟩, [])
    | none, some indentation =>
      match rest with
      | sign :: after => match Chomping.ofSign? sign with
        | some chomping => (⟨chomping, some indentation⟩, after)
        | none => (⟨.clip, some indentation⟩, rest)
      | [] => (⟨.clip, some indentation⟩, [])
    | none, none => ({}, text)

/-- Skips empty lines and the indentation of the line after them. Gives the breaks, backwards,
and the most blanks in one of these lines. Without an `indent` all blanks are indentation; a
tab may not stand among them. -/
def emptyLines (indent : Option Nat) (breaks : List Char) (most line column : Nat) :
    List Char → Option (List Char × Nat × Cursor)
  | [] => some (breaks, max most column, ⟨[], line, column⟩)
  | c :: rest =>
    let indenting := indent.all (column < ·)
    if c == ' ' && indenting then emptyLines indent breaks most line (column + 1) rest
    else if c == '\t' && indenting then none
    else if isBreak c then
      emptyLines indent (c :: breaks) (max most column) (line + 1) 0 rest
    else some (breaks, max most column, ⟨c :: rest, line, column⟩)

structure BlockText where
  text : List Char := []
  last : Option Char := none
  /-- The last line starts with a blank. -/
  blankStart : Bool := false
  /-- The breaks of the empty lines after the last one, backwards. -/
  empty : List Char := []

namespace BlockText

/-- Adds a line. In a folded text the line feed between two lines is a blank, or nothing if
empty lines come between, unless one of the two starts with a blank. -/
def push (block : BlockText) (folded : Bool) (line : List Char) : BlockText :=
  let blankStart := line.head?.any isBlank
  let joined := if folded && block.last == some '\n' && !block.blankStart && !blankStart then
      if block.empty.isEmpty then ' ' :: block.text else block.text
    else block.last.toList ++ block.text
  { text := line.reverse ++ block.empty ++ joined, blankStart }

def chomp (block : BlockText) : Chomping → List Char
  | .strip => block.text
  | .clip => block.last.toList ++ block.text
  | .keep => block.empty ++ block.last.toList ++ block.text

end BlockText

def blockLines (folded : Bool) (indent : Nat) :
    (fuel : Nat) → BlockText → Cursor → Option (BlockText × Cursor)
  | 0, _, _ => none
  | fuel + 1, block, cursor =>
    if cursor.rest.isEmpty || cursor.column != indent then some (block, cursor)
    else
      let added := block.push folded (cursor.rest.takeWhile (!isBreak ·))
      match cursor.rest.dropWhile (!isBreak ·) with
      | [] => some (added, cursor.along [])
      | c :: rest =>
        match emptyLines (some indent) [] 0 (cursor.line + 1) 0 rest with
        | some (empty, _, next) =>
          blockLines folded indent fuel { added with last := some c, empty } next
        | none => none

/-- A block from behind its opening sign. `around` is the column of the mapping around it. An
indentation that the header leaves open is that of the first line with content, or the most
in the empty lines before it, and deeper than the lines around. -/
def block? (folded : Bool) (around : Option Nat) (cursor : Cursor) :
    Option (List Char × Cursor) := do
  let (header, rest) := blockHeader cursor.rest
  let start ← (cursor.along rest).below?
  let given := header.indentation.map (around.getD 0 + ·)
  let (empty, most, first) ← emptyLines given [] 0 start.line start.column start.rest
  let indent := given.getD (max most (max 1 (around.elim 0 (· + 1))))
  let (block, after) ← blockLines folded indent (first.rest.length + 1) { empty } first
  return (block.chomp header.chomping, after)

end Reentrancy.Yaml
