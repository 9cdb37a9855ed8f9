/-! Decimal integers as text: an optional sign and at least one ASCII digit, in a
stated range. -/
namespace Reentrancy.Text

def digits? (text : List Char) : Option Nat :=
  if !text.isEmpty && text.all Char.isDigit then some (Nat.ofDigitChars 10 text 0) else none

def signed? : List Char → Option Int
  | '-' :: rest => (digits? rest).map fun magnitude => -(magnitude : Int)
  | '+' :: rest => (digits? rest).map Int.ofNat
  | text => (digits? text).map Int.ofNat

def InWord (value : Int) : Prop := -9223372036854775808 ≤ value ∧ value ≤ 9223372036854775807

instance (value : Int) : Decidable (InWord value) := inferInstanceAs (Decidable (_ ∧ _))

def word? (text : List Char) : Option Int :=
  (signed? text).filter fun value => decide (InWord value)

end Reentrancy.Text
