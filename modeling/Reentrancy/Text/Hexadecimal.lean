/-! Hexadecimal digits. -/
namespace Reentrancy.Text

def hexDigit? (c : Char) : Option Nat :=
  if '0' ≤ c ∧ c ≤ '9' then some (c.toNat - '0'.toNat)
  else if 'a' ≤ c ∧ c ≤ 'f' then some (c.toNat - 'a'.toNat + 10)
  else if 'A' ≤ c ∧ c ≤ 'F' then some (c.toNat - 'A'.toNat + 10)
  else none

/-- The number with the given digits, at least one, in a base of at most sixteen. -/
def digitsIn? (base : Nat) (digits : List Char) : Option Nat := do
  let values ← digits.mapM hexDigit?
  if !values.isEmpty && values.all (· < base) then
    some (values.foldl (fun sum value => sum * base + value) 0)
  else none

def hex? (digits : List Char) : Option Nat := digitsIn? 16 digits

end Reentrancy.Text
