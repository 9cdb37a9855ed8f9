import Reentrancy.Yaml.Block
import Reentrancy.Yaml.Token

/-! From a YAML text to its tokens. That something is a key shows only at the colon after it,
so a place where a key may have started is kept until the colon comes or can no longer come.
Sequences have no tokens: a text with one is refused. -/
namespace Reentrancy.Yaml

structure Candidate where
  /-- How many tokens come before it. -/
  position : Nat
  line : Nat
  column : Nat
  /-- Nothing but a key can start here. -/
  required : Bool

namespace Candidate

/-- Keys end in the line in which they start, after at most 1024 characters. -/
def isOver (candidate : Candidate) (cursor : Cursor) : Bool :=
  candidate.line < cursor.line || candidate.column + 1024 < cursor.column

/-- Gives a candidate up. A required one may not be given up. -/
def release? : Option Candidate → Option (Option Candidate)
  | none => some none
  | some candidate => if candidate.required then none else some none

def expire? (cursor : Cursor) : Option Candidate → Option (Option Candidate)
  | none => some none
  | some candidate =>
    if candidate.isOver cursor then release? (some candidate) else some (some candidate)

end Candidate

structure Lexer where
  cursor : Cursor
  /-- The columns of the mappings in lines, innermost first. -/
  indents : List Nat := []
  candidate : Option Candidate := none
  /-- The candidates outside of each open brace, innermost first. -/
  outer : List (Option Candidate) := []
  /-- A key may start here. -/
  keyAllowed : Bool := true
  tokens : Array Token := #[]

/-- Skips blanks, comments and line breaks, and a byte order mark at the start of a line.
Tabs are no indentation: they may not stand where a key is allowed outside braces. A new line
outside braces allows a key. -/
def toToken (flow keyAllowed comment : Bool) (line column : Nat) : List Char → Bool × Cursor
  | [] => (keyAllowed, ⟨[], line, column⟩)
  | c :: rest =>
    if isBreak c then toToken flow (keyAllowed || !flow) false (line + 1) 0 rest
    else if comment || c == '#' then toToken flow keyAllowed true line (column + 1) rest
    else if c == ' ' || (c == '\t' && (flow || !keyAllowed)) || (c == '\ufeff' && column == 0) then
      toToken flow keyAllowed false line (column + 1) rest
    else (keyAllowed, ⟨c :: rest, line, column⟩)

namespace Lexer

def inFlow (lexer : Lexer) : Bool := !lexer.outer.isEmpty

def push (lexer : Lexer) (token : Token) (cursor : Cursor) : Lexer :=
  { lexer with tokens := lexer.tokens.push token, cursor }

def pushAlong (lexer : Lexer) (token : Token) (rest : List Char) : Lexer :=
  lexer.push token (lexer.cursor.along rest)

def endMappings (lexer : Lexer) (ends : Nat → Bool) : Lexer :=
  if lexer.inFlow then lexer
  else
    { lexer with
      indents := lexer.indents.dropWhile ends
      tokens := lexer.tokens ++
        (lexer.indents.takeWhile ends).toArray.map fun _ => Token.mappingEnd }

/-- Starts a mapping in lines unless one with this column is open. Its first token comes at
a position among those that are there. -/
def startMapping (lexer : Lexer) (column position : Nat) : Lexer :=
  if !lexer.inFlow && lexer.indents.head?.all (· < column) then
    { lexer with
      indents := column :: lexer.indents
      tokens := lexer.tokens.insertIdxIfInBounds position .mappingStart }
  else lexer

def releaseKey (lexer : Lexer) : Option Lexer :=
  (Candidate.release? lexer.candidate).map fun candidate => { lexer with candidate }

/-- A key may start at the cursor, and must if a mapping has its keys in this column. -/
def markKey (lexer : Lexer) : Option Lexer :=
  if lexer.keyAllowed then
    lexer.releaseKey.map fun lexer =>
      let { line, column, .. } := lexer.cursor
      let required := !lexer.inFlow && lexer.indents.head? == some column
      { lexer with candidate := some ⟨lexer.tokens.size, line, column, required⟩ }
  else some lexer

/-- Moves on to the next token: old candidates are given up and mappings that are indented
further end. -/
def toNext (lexer : Lexer) : Option Lexer := do
  let { rest, line, column } := lexer.cursor
  let (keyAllowed, cursor) := toToken lexer.inFlow lexer.keyAllowed false line column rest
  let candidate ← Candidate.expire? cursor lexer.candidate
  let outer ← lexer.outer.mapM (Candidate.expire? cursor)
  return { lexer with cursor, keyAllowed, candidate, outer }.endMappings (cursor.column < ·)

/-! ## Signs -/

def leaveDocument (lexer : Lexer) : Option Lexer :=
  ({ lexer.endMappings fun _ => true with keyAllowed := false }).releaseKey

def marker (lexer : Lexer) (sign : Char) (rest : List Char) : Option Lexer :=
  lexer.leaveDocument.map fun lexer =>
    lexer.pushAlong (if sign == '-' then .documentStart else .documentEnd) (rest.drop 2)

def openBrace (lexer : Lexer) (rest : List Char) : Option Lexer :=
  lexer.markKey.map fun lexer =>
    { lexer with
      candidate := none
      outer := lexer.candidate :: lexer.outer
      keyAllowed := true }.pushAlong .openBrace rest

def closeBrace (lexer : Lexer) (rest : List Char) : Option Lexer :=
  lexer.releaseKey.map fun lexer =>
    let closed := match lexer.outer with
      | [] => lexer
      | candidate :: outer => { lexer with candidate, outer }
    { closed with keyAllowed := false }.pushAlong .closeBrace rest

def comma (lexer : Lexer) (rest : List Char) : Option Lexer :=
  lexer.releaseKey.map fun lexer => { lexer with keyAllowed := true }.pushAlong .comma rest

/-- Outside braces a sign for a key or a value, without a candidate, may start a mapping. -/
def startEntry (lexer : Lexer) : Option Lexer :=
  if lexer.inFlow then some { lexer with keyAllowed := false }
  else if lexer.keyAllowed then
    some (lexer.startMapping lexer.cursor.column lexer.tokens.size)
  else none

def keySign (lexer : Lexer) (rest : List Char) : Option Lexer :=
  lexer.startEntry.bind fun lexer =>
    lexer.releaseKey.map fun lexer => lexer.pushAlong .key rest

def valueSign (lexer : Lexer) (rest : List Char) : Option Lexer :=
  match lexer.candidate with
  | some candidate =>
    let keyed := { lexer with
      candidate := none
      keyAllowed := false
      tokens := lexer.tokens.insertIdxIfInBounds candidate.position .key }
    some ((keyed.startMapping candidate.column candidate.position).pushAlong .value rest)
  | none => lexer.startEntry.map fun lexer => lexer.pushAlong .value rest

/-! ## Directives -/

def versionNumber? (text : List Char) : Option (Nat × List Char) :=
  let digits := text.takeWhile Char.isDigit
  if digits.isEmpty || 9 < digits.length then none
  else some (Nat.ofDigitChars 10 digits 0, text.dropWhile Char.isDigit)

def versionDirective? (text : List Char) : Option (Token × List Char) :=
  match versionNumber? (text.dropWhile isBlank) with
  | some (major, '.' :: rest) =>
    (versionNumber? rest).map fun (minor, after) => (.version major minor, after)
  | _ => none

/-- A lone exclamation mark is a handle too. -/
def handleDirective? (text : List Char) : Option (Token × List Char) := do
  let (handle, rest) ← match text.dropWhile isBlank with
    | '!' :: rest =>
      if rest.head?.any isBlank then some (['!'], rest) else handle? ('!' :: rest)
    | _ => none
  let (start, after) ← tagPart? true (rest.dropWhile isBlank)
  if rest.head?.any isBlank && endsWord after then some (.handle handle start, after) else none

def directive (lexer : Lexer) (rest : List Char) : Option Lexer := do
  let left ← lexer.leaveDocument
  let after := rest.dropWhile isNameChar
  let (token, following) ← match String.ofList (rest.takeWhile isNameChar) with
    | "YAML" => if endsWord after then versionDirective? after else none
    | "TAG" => if endsWord after then handleDirective? after else none
    | _ => none
  return left.push token (← (left.cursor.along following).below?)

/-! ## Content -/

def named (lexer : Lexer) (token : List Char → Token) (rest : List Char) : Option Lexer := do
  let marked ← lexer.markKey
  let name := rest.takeWhile isNameChar
  let after := rest.dropWhile isNameChar
  if !name.isEmpty && (endsWord after || (after.head?.any "?:,]\x7d%@\x60".toList.contains)) then
    some ({ marked with keyAllowed := false }.pushAlong (token name) after)
  else none

def tag (lexer : Lexer) (text : List Char) : Option Lexer := do
  let marked ← lexer.markKey
  let (tag, after) ← tagText? text
  if endsWord after || (lexer.inFlow && after.head? == some ',') then
    some ({ marked with keyAllowed := false }.pushAlong (.tag tag) after)
  else none

def block (lexer : Lexer) (sign : Char) (rest : List Char) : Option Lexer := do
  let released ← lexer.releaseKey
  let folded := sign == '>'
  let (text, after) ← block? folded lexer.indents.head? (lexer.cursor.along rest)
  let style := if folded then Style.folded else .literal
  return { released with keyAllowed := true }.push
    (.scalar ⟨String.ofList text.reverse, style⟩) after

def quoted (lexer : Lexer) (sign : Char) (rest : List Char) : Option Lexer := do
  let marked ← lexer.markKey
  let { line, column, .. } := lexer.cursor
  let (text, after) ← if sign == '"' then double [] (.blanks []) line (column + 1) rest
    else single [] (.blanks []) line (column + 1) rest
  return { marked with keyAllowed := false }.push
    (.scalar ⟨String.ofList text.reverse, .quoted⟩) after

def plain (lexer : Lexer) (text : List Char) : Option Lexer := do
  let marked ← lexer.markKey
  let { line, column, .. } := lexer.cursor
  let indent := lexer.indents.head?.elim 0 (· + 1)
  let (read, crossed, after) ←
    if startsPlain lexer.inFlow text then
      Yaml.plain lexer.inFlow indent [] (.blanks []) line column text
    else none
  return { marked with keyAllowed := crossed }.push
    (.scalar ⟨String.ofList read.reverse, .plain⟩) after

/-! ## All tokens -/

def token (lexer : Lexer) (sign : Char) (rest : List Char) : Option Lexer :=
  let isSign := lexer.inFlow || endsWord rest
  if lexer.cursor.column == 0 && sign == '%' then lexer.directive rest
  else if lexer.cursor.column == 0 && isMarker (sign :: rest) then lexer.marker sign rest
  else
    match sign with
    | '\x7b' => lexer.openBrace rest
    | '\x7d' => lexer.closeBrace rest
    | ',' => lexer.comma rest
    | '?' => if isSign then lexer.keySign rest else lexer.plain (sign :: rest)
    | ':' => if isSign then lexer.valueSign rest else lexer.plain (sign :: rest)
    | '*' => lexer.named .reference rest
    | '&' => lexer.named .anchor rest
    | '!' => lexer.tag (sign :: rest)
    | '|' | '>' => if lexer.inFlow then none else lexer.block sign rest
    | '\'' | '"' => lexer.quoted sign rest
    | _ => lexer.plain (sign :: rest)

def finish (lexer : Lexer) : Option (List Token) :=
  lexer.leaveDocument.map (·.tokens.toList)

def run : (fuel : Nat) → Lexer → Option (List Token)
  | 0, _ => none
  | fuel + 1, lexer =>
    match lexer.toNext with
    | none => none
    | some next =>
      match next.cursor.rest with
      | [] => next.finish
      | sign :: rest => (next.token sign rest).bind (run fuel)

end Lexer

/-- Each token takes at least one character. -/
def tokens? (text : String) : Option (List Token) :=
  let chars := unifyBreaks text.toList
  if chars.all isPrintable then Lexer.run (chars.length + 1) { cursor := ⟨chars, 0, 0⟩ } else none

end Reentrancy.Yaml
