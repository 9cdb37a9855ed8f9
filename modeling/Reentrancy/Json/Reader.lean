import Reentrancy.Json.Number
import Reentrancy.Table
import Reentrancy.Text.Hexadecimal

/-! A strict JSON reader in two steps. The text is cut into tokens, and the tokens drive a
machine with a stack of open lists and objects; the height of the stack is limited. A
repeated key keeps its last value, and fields come in key order. -/
namespace Reentrancy.Json

/-! ## Texts in quotes -/

inductive Glyph where
  | char (value : Char)
  | unit (value : Nat)

/-- Splits at the closing quote, escapes left as they are. Control characters must be
escaped. -/
def quoted? (seen : List Char) : List Char → Option (List Char × List Char)
  | [] => none
  | '"' :: rest => some (seen.reverse, rest)
  | '\\' :: c :: rest => quoted? (c :: '\\' :: seen) rest
  | c :: rest => if c.toNat < 0x20 then none else quoted? (c :: seen) rest

def escape? : Char → Option Char
  | '"' => some '"'
  | '\\' => some '\\'
  | '/' => some '/'
  | 'b' => some '\x08'
  | 'f' => some '\x0c'
  | 'n' => some '\n'
  | 'r' => some '\r'
  | 't' => some '\t'
  | _ => none

def glyphs? (seen : List Glyph) : List Char → Option (List Glyph)
  | [] => some seen.reverse
  | '\\' :: 'u' :: a :: b :: c :: d :: rest =>
    match Text.hex? [a, b, c, d] with
    | some value => glyphs? (.unit value :: seen) rest
    | none => none
  | '\\' :: c :: rest =>
    match escape? c with
    | some value => glyphs? (.char value :: seen) rest
    | none => none
  | c :: rest => glyphs? (.char c :: seen) rest

def isHigh (unit : Nat) : Bool := 0xD800 ≤ unit && unit < 0xDC00
def isLow (unit : Nat) : Bool := 0xDC00 ≤ unit && unit < 0xE000

/-- Joins surrogate pairs; a surrogate that stands alone is refused. -/
def chars? (seen : List Char) : List Glyph → Option (List Char)
  | [] => some seen.reverse
  | .char c :: rest => chars? (c :: seen) rest
  | .unit high :: .unit low :: rest =>
    if isHigh high then
      if isLow low then
        chars? (Char.ofNat (0x10000 + (high - 0xD800) * 0x400 + (low - 0xDC00)) :: seen) rest
      else none
    else if isLow high then none
    else chars? (Char.ofNat high :: seen) (.unit low :: rest)
  | .unit unit :: rest =>
    if isHigh unit || isLow unit then none else chars? (Char.ofNat unit :: seen) rest

def unquote? (raw : List Char) : Option String :=
  ((glyphs? [] raw).bind (chars? [])).map String.ofList

/-! ## Tokens -/

inductive Token where
  | openList
  | closeList
  | openObject
  | closeObject
  | comma
  | colon
  | scalar (value : Json)

def isSpace (c : Char) : Bool := c == ' ' || c == '\t' || c == '\n' || c == '\r'

def isNumberChar (c : Char) : Bool :=
  c.isDigit || c == '-' || c == '+' || c == '.' || c == 'e' || c == 'E'

def token? : List Char → Option (Token × List Char)
  | '[' :: rest => some (.openList, rest)
  | ']' :: rest => some (.closeList, rest)
  | '\x7b' :: rest => some (.openObject, rest)
  | '\x7d' :: rest => some (.closeObject, rest)
  | ',' :: rest => some (.comma, rest)
  | ':' :: rest => some (.colon, rest)
  | '"' :: rest => (quoted? [] rest).bind fun (raw, after) =>
      (unquote? raw).map fun value => (.scalar (.text value), after)
  | 'n' :: 'u' :: 'l' :: 'l' :: rest => some (.scalar .null, rest)
  | 't' :: 'r' :: 'u' :: 'e' :: rest => some (.scalar (.bool true), rest)
  | 'f' :: 'a' :: 'l' :: 's' :: 'e' :: rest => some (.scalar (.bool false), rest)
  | source => (number? (source.takeWhile isNumberChar)).map fun value =>
      (.scalar value, source.dropWhile isNumberChar)

/-- Every token takes at least one character, so as many steps as there are characters
are enough. -/
def tokens? (seen : List Token) : Nat → List Char → Option (List Token)
  | _, [] => some seen.reverse
  | 0, _ :: _ => none
  | steps + 1, c :: rest =>
    if isSpace c then tokens? seen steps rest
    else match token? (c :: rest) with
      | some (token, after) => tokens? (token :: seen) steps after
      | none => none

/-! ## Values -/

/-- An open list or object, latest entry first; an object also holds the key whose value
comes next. -/
inductive Frame where
  | list (items : List Json)
  | object (fields : List (String × Json)) (key : String)

inductive Expected where
  | value
  | itemOrClose
  | keyOrClose
  | key
  | colon
  | commaOrClose
  | nothing (value : Json)

structure Machine where
  stack : List Frame
  expected : Expected

namespace Machine

def start : Machine := ⟨[], .value⟩

def deliver (value : Json) : List Frame → Machine
  | [] => ⟨[], .nothing value⟩
  | .list items :: outer => ⟨.list (value :: items) :: outer, .commaOrClose⟩
  | .object fields key :: outer => ⟨.object ((key, value) :: fields) "" :: outer, .commaOrClose⟩

def enter (limit : Nat) (frame : Frame) (expected : Expected) (stack : List Frame) :
    Option Machine :=
  if stack.length < limit then some ⟨frame :: stack, expected⟩ else none

def leave : Token → List Frame → Option Machine
  | .closeList, .list items :: outer => some (deliver (.list items.reverse) outer)
  | .closeObject, .object fields _ :: outer =>
    some (deliver (.object (Table.ofList fields.reverse).entries) outer)
  | _, _ => none

def value (limit : Nat) (stack : List Frame) : Token → Option Machine
  | .openList => enter limit (.list []) .itemOrClose stack
  | .openObject => enter limit (.object [] "") .keyOrClose stack
  | .scalar value => some (deliver value stack)
  | _ => none

def key : List Frame → Token → Option Machine
  | .object fields _ :: outer, .scalar (.text name) => some ⟨.object fields name :: outer, .colon⟩
  | _, _ => none

def step (limit : Nat) (machine : Machine) (token : Token) : Option Machine :=
  match machine.expected, token with
  | .value, token => value limit machine.stack token
  | .itemOrClose, .closeList => leave token machine.stack
  | .itemOrClose, token => value limit machine.stack token
  | .keyOrClose, .closeObject => leave token machine.stack
  | .keyOrClose, token => key machine.stack token
  | .key, token => key machine.stack token
  | .colon, .colon => some ⟨machine.stack, .value⟩
  | .commaOrClose, .comma => match machine.stack with
    | .object _ _ :: _ => some ⟨machine.stack, .key⟩
    | _ => some ⟨machine.stack, .value⟩
  | .commaOrClose, token => leave token machine.stack
  | _, _ => none

def result? (machine : Machine) : Option Json :=
  match machine.expected with
  | .nothing value => some value
  | _ => none

end Machine

def read? (limit : Nat) (text : String) : Option Json :=
  let chars := text.toList
  (tokens? [] chars.length chars).bind fun tokens =>
    (tokens.foldlM (Machine.step limit) Machine.start).bind Machine.result?

def ofText? (text : String) : Option Json := read? 127 text

end Reentrancy.Json
