import Reentrancy.Text.Hexadecimal
import Reentrancy.Yaml.Cursor

/-! YAML tags. A tag is written in full or as a handle, which stands for its first part, and
the rest of it. Octets can be written in hexadecimal after a percent sign. -/
namespace Reentrancy.Yaml

/-- A tag in full, in UTF-8. It ends before its first null octet. -/
structure Tag where
  octets : List UInt8
deriving DecidableEq, Repr

/-- A tag as it is written: a handle, empty for a tag in full, and the rest. -/
structure TagText where
  handle : List Char
  rest : List UInt8
deriving DecidableEq, Repr

abbrev Handles := List (List Char × List UInt8)

def octetsOf (text : String) : List UInt8 := text.toUTF8.toList

namespace Tag

def text? (tag : Tag) : Option String := String.fromUTF8? ⟨tag.octets.toArray⟩

def isText (tag : Tag) (text : String) : Bool := tag.octets == octetsOf text

end Tag

def usualHandles : Handles :=
  [(['!'], octetsOf "!"), (['!', '!'], octetsOf "tag:yaml.org,2002:")]

def TagText.resolve? (handles : Handles) (tag : TagText) : Option Tag :=
  if tag.handle.isEmpty then some ⟨tag.rest⟩
  else ((handles ++ usualHandles).lookup tag.handle).map fun start => ⟨start ++ tag.rest⟩

/-! ## Reading -/

/-- The characters of a tag; commas and square brackets only where nothing could end at
them. -/
def isTagChar (listed : Bool) (c : Char) : Bool :=
  isNameChar c || ";/?:@&=+$.!~*'()".toList.contains c || (listed && ",[]".toList.contains c)

def followers? (octet : Nat) : Option Nat :=
  if octet < 0x80 then some 0
  else if octet / 32 = 6 then some 1
  else if octet / 16 = 14 then some 2
  else if octet / 8 = 30 then some 3
  else none

/-- The octets of a tag, backwards, and what follows them. The octets of one character are
written one after the other; `awaited` of them are still to come. -/
def tagOctets (listed : Bool) (awaited : Nat) (octets : List UInt8) :
    List Char → Option (List UInt8 × List Char)
  | [] => if awaited = 0 then some (octets, []) else none
  | '%' :: a :: b :: rest =>
    let octet := Text.hex? [a, b]
    let left := octet.bind fun octet =>
      if awaited = 0 then followers? octet
      else if octet / 64 = 2 then some (awaited - 1)
      else none
    match octet, left with
    | some octet, some left => tagOctets listed left (octet.toUInt8 :: octets) rest
    | _, _ => none
  | c :: rest =>
    if c == '%' || awaited ≠ 0 then none
    else if isTagChar listed c then tagOctets listed 0 (c.toNat.toUInt8 :: octets) rest
    else some (octets, c :: rest)

def tagPart (listed : Bool) (text : List Char) : Option (List UInt8 × List Char) :=
  (tagOctets listed 0 [] text).map fun (octets, after) =>
    (octets.reverse.takeWhile (· != 0), after)

def tagPart? (listed : Bool) (text : List Char) : Option (List UInt8 × List Char) :=
  (tagPart listed text).filter fun (_, after) => after.length < text.length

def handle? : List Char → Option (List Char × List Char)
  | '!' :: rest =>
    match rest.dropWhile isNameChar with
    | '!' :: after => some ('!' :: rest.takeWhile isNameChar ++ ['!'], after)
    | _ => none
  | _ => none

/-- A tag from its exclamation mark on, and what follows it. The mark alone is a tag in
full. -/
def tagText? (text : List Char) : Option (TagText × List Char) :=
  match text with
  | '!' :: '<' :: rest =>
    match tagPart? true rest with
    | some (octets, '>' :: after) => some (⟨[], octets⟩, after)
    | _ => none
  | _ =>
    match handle? text with
    | some (handle, rest) =>
      (tagPart? false rest).map fun (octets, after) => (⟨handle, octets⟩, after)
    | none =>
      (tagPart false (text.drop 1)).map fun (octets, after) =>
        if octets.isEmpty then (⟨[], octetsOf "!"⟩, after) else (⟨['!'], octets⟩, after)

end Reentrancy.Yaml
