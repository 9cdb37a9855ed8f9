import Reentrancy.Json.Value

/-! JSON numbers. A number without fraction and exponent that fits a 64-bit word, signed
or unsigned, is an integer; minus zero and all others are reals. A real is worked out as
the product of two doubles: its leading digits, as many as fit a word, and a power of ten.
If that product is infinite the number is refused. -/
namespace Reentrancy.Json

structure NumberParts where
  negative : Bool
  whole : List Char
  fraction : Option (List Char)
  exponent : Option Int

/-- No leading zero, at least one digit. -/
def isWhole : List Char → Bool
  | [] => false
  | ['0'] => true
  | first :: _ => first != '0'

def exponent? (text : List Char) : Option Int :=
  let (negative, digits) := match text with
    | '-' :: rest => (true, rest)
    | '+' :: rest => (false, rest)
    | rest => (false, rest)
  if !digits.isEmpty && digits.all Char.isDigit then
    let magnitude : Int := Nat.ofDigitChars 10 digits 0
    some (if negative then -magnitude else magnitude)
  else none

def exponentPart? : List Char → Option (Option Int)
  | [] => some none
  | mark :: rest => if mark == 'e' || mark == 'E' then (exponent? rest).map some else none

def parts? (text : List Char) : Option NumberParts :=
  let (negative, unsigned) := match text with
    | '-' :: rest => (true, rest)
    | rest => (false, rest)
  let whole := unsigned.takeWhile Char.isDigit
  if isWhole whole then
    match unsigned.dropWhile Char.isDigit with
    | '.' :: rest =>
      let fraction := rest.takeWhile Char.isDigit
      if fraction.isEmpty then none
      else (exponentPart? (rest.dropWhile Char.isDigit)).map
        fun exponent => ⟨negative, whole, some fraction, exponent⟩
    | rest => (exponentPart? rest).map fun exponent => ⟨negative, whole, none, exponent⟩
  else none

/-! ## Range of reals -/

def wordBound : Nat := Nat.pow 2 64

/-- Appends digits to a number as long as it stays below `wordBound`. Gives the number and
how many digits were left over. -/
def appendDigits (number : Nat) : List Char → Nat × Nat
  | [] => (number, 0)
  | digit :: rest =>
    let longer := 10 * number + (digit.toNat - '0'.toNat)
    if longer < wordBound then appendDigits longer rest else (number, rest.length + 1)

/-- Leading digits of a number and the power of ten that goes with them. Whole digits that
are left over raise the power, fraction digits that are taken lower it. -/
def scientific (parts : NumberParts) : Nat × Int :=
  let fraction := parts.fraction.getD []
  let (whole, raised) := appendDigits 0 parts.whole
  let (digits, left) := appendDigits whole fraction
  (digits, raised - (fraction.length - left) + parts.exponent.getD 0)

/-- The double nearest to a natural number, the even one of two, for numbers in range. -/
def nearestDouble (number : Nat) : Nat :=
  let unit := Nat.pow 2 (number.log2 - 52)
  let below := number / unit
  let rest := number % unit
  if 2 * rest < unit || (2 * rest == unit && below % 2 == 0) then below * unit
  else (below + 1) * unit

/-- Products from here on round to infinity: halfway between the largest finite double and
the next power of two. -/
def infinityBound : Nat := Nat.pow 2 1024 - Nat.pow 2 970

def overflows (parts : NumberParts) : Bool :=
  let (digits, power) := scientific parts
  digits != 0 && 0 ≤ power &&
    (308 < power || infinityBound ≤ nearestDouble digits * nearestDouble (Nat.pow 10 power.toNat))

/-- A real is kept as written, but never looks like an integer. -/
def realText (parts : NumberParts) (text : List Char) : String :=
  let isWhole := parts.fraction.isNone && parts.exponent.isNone
  String.ofList (if isWhole then text ++ ['.', '0'] else text)

def number? (text : List Char) : Option Json :=
  match parts? text with
  | none => none
  | some parts =>
    let magnitude : Int := Nat.ofDigitChars 10 parts.whole 0
    if parts.fraction.isNone && parts.exponent.isNone && !parts.negative
        && magnitude < wordBound then
      some (int magnitude)
    else if parts.fraction.isNone && parts.exponent.isNone && parts.negative
        && 0 < magnitude && magnitude ≤ 9223372036854775808 then
      some (int (-magnitude))
    else if overflows parts then none
    else some (real (realText parts text))

end Reentrancy.Json
