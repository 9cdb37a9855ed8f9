import Reentrancy.Text.Blank
import Reentrancy.Text.Decimal
import Reentrancy.Text.Search

/-! Source locations: a byte range in a numbered file, its `offset:length:file` text,
and the line and column of a byte offset. -/
namespace Reentrancy

structure Location where
  offset : Int := 0
  length : Int := 0
  file : Int := 0
deriving DecidableEq, Repr, Inhabited

namespace Location

def text (location : Location) : String :=
  toString location.offset ++ ":" ++ toString location.length ++ ":" ++ toString location.file

/-- A part that is no 64-bit decimal integer counts as zero. -/
def part (text : List Char) : Int := (Text.word? (Text.trim text)).getD 0

/-- Missing parts are zero, parts after the third are ignored. -/
def ofText (text : String) : Location :=
  let parts := (Text.pieces ':' text.toList).map part
  ⟨parts[0]?.getD 0, parts[1]?.getD 0, parts[2]?.getD 0⟩

end Location

/-- Line and column, both counted from one, columns in bytes. -/
structure Position where
  line : Nat
  column : Nat
deriving DecidableEq, Repr

namespace Position

def start : Position := ⟨1, 1⟩

/-- Looks for a byte offset in lines, of which the first has the number `line` and starts at the
byte `first`. -/
def find? (offset line first : Nat) : List String → Option Position
  | [] => none
  | text :: rest =>
    let next := first + text.utf8ByteSize
    if offset < next then some ⟨line, offset - first + 1⟩
    else find? offset (line + 1) next rest

/-- The position of a byte offset; offsets outside the source give its start. -/
def ofOffset (offset : Int) (source : String) : Position :=
  if offset < 0 ∨ source.utf8ByteSize ≤ offset then start
  else (find? offset.toNat 1 0 (Text.lines source)).getD start

end Position

def Location.position (location : Location) (source : String) : Position :=
  Position.ofOffset location.offset source

end Reentrancy
