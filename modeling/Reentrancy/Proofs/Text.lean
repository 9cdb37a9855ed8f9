import Reentrancy.Text.Blank
import Reentrancy.Text.Decimal
import Reentrancy.Text.Search

/-! Cutting, trimming and reading text. Pieces between separators are those of the parts, trimming
changes nothing without blanks, and the decimal text of a number is read as this number. -/
namespace Reentrancy.Text

section Pieces

variable {separator : Char}

theorem pieces_ne_nil (separator : Char) (text : List Char) : pieces separator text ≠ [] := by
  cases text with
  | nil => simp [pieces]
  | cons c rest =>
    rw [pieces]
    split
    · simp
    · split <;> simp

theorem pieces_append (separator : Char) (front rest : List Char) :
    pieces separator (front ++ separator :: rest) =
      pieces separator front ++ pieces separator rest := by
  induction front with
  | nil => simp [pieces]
  | cons c others ih =>
    rw [List.cons_append, pieces, pieces, ih]
    split
    · rfl
    · obtain ⟨first, more, split⟩ := List.exists_cons_of_ne_nil (pieces_ne_nil separator others)
      rw [split]
      rfl

theorem pieces_of_not_mem {text : List Char} (absent : separator ∉ text) :
    pieces separator text = [text] := by
  induction text with
  | nil => rfl
  | cons c rest ih =>
    rw [List.mem_cons, not_or] at absent
    rw [pieces, if_neg (Ne.symm absent.1), ih absent.2]

theorem afterLast_of_not_mem {text : String} (absent : separator ∉ text.toList) :
    afterLast separator text = text := by
  rw [afterLast, pieces_of_not_mem absent]
  exact String.ofList_toList

theorem afterLast_of_split {text last : String} {front : List Char}
    (split : text.toList = front ++ separator :: last.toList) (absent : separator ∉ last.toList) :
    afterLast separator text = last := by
  rw [afterLast, split, pieces_append, pieces_of_not_mem absent, List.getLastD_concat]
  exact String.ofList_toList

end Pieces

theorem trim_eq_self {text : List Char} (solid : ∀ c ∈ text, isBlank c = false) :
    trim text = text := by
  have kept {chars : List Char} (none : ∀ c ∈ chars, isBlank c = false) :
      chars.dropWhile isBlank = chars := by
    cases chars with
    | nil => rfl
    | cons c rest => exact List.dropWhile_cons_of_neg (by simp [none c List.mem_cons_self])
  rw [trim, kept solid, kept (by simpa using solid), List.reverse_reverse]

theorem digits?_toDigits (value : Nat) : digits? (Nat.toDigits 10 value) = some value := by
  have digits : (Nat.toDigits 10 value).all Char.isDigit = true :=
    List.all_eq_true.mpr fun c member => Nat.isDigit_of_mem_toDigits (by decide) (by decide) member
  have some : (Nat.toDigits 10 value).isEmpty = false := by simp
  rw [digits?, some, digits, Nat.ofDigitChars_ten_toDigits]
  rfl

theorem toList_toString (value : Int) :
    (toString value).toList =
      if 0 ≤ value then Nat.toDigits 10 value.toNat else '-' :: Nat.toDigits 10 (-value).toNat := by
  rw [Int.toString_eq_repr, Int.repr_eq_if]
  split <;> simp

theorem signed?_toString (value : Int) : signed? (toString value).toList = some value := by
  rw [toList_toString]
  split
  next positive =>
    have number : (digits? (Nat.toDigits 10 value.toNat)).map Int.ofNat = some value := by
      rw [digits?_toDigits, Option.map_some, Int.ofNat_eq_natCast, Int.toNat_of_nonneg positive]
    have digit {c : Char} {rest : List Char} (split : Nat.toDigits 10 value.toNat = c :: rest) :
        c.isDigit = true :=
      Nat.isDigit_of_mem_toDigits (by decide) (by decide) (split ▸ List.mem_cons_self)
    unfold signed?
    split
    next found => simpa using digit found
    next found => simpa using digit found
    next => exact number
  next negative =>
    rw [signed?, digits?_toDigits]
    change some (-((-value).toNat : Int)) = some value
    rw [Int.toNat_of_nonneg (by omega), Int.neg_neg]

theorem word?_toString {value : Int} (bounded : InWord value) :
    word? (toString value).toList = some value := by
  rw [word?, signed?_toString, Option.filter_some, if_pos (decide_eq_true bounded)]

theorem mem_toString {value : Int} {c : Char} (member : c ∈ (toString value).toList) :
    c = '-' ∨ c.isDigit = true := by
  have digit {number : Nat} (inside : c ∈ Nat.toDigits 10 number) : c.isDigit = true :=
    Nat.isDigit_of_mem_toDigits (by decide) (by decide) inside
  rw [toList_toString] at member
  split at member
  · exact .inr (digit member)
  · exact (List.mem_cons.mp member).imp_right digit

theorem isBlank_of_isDigit {c : Char} (digit : c.isDigit = true) : isBlank c = false := by
  have range : 48 ≤ c.toNat ∧ c.toNat ≤ 57 := by
    simpa [Char.isDigit, Char.le_def, UInt32.le_iff_toNat_le] using digit
  have apart : ∀ blanks ∈ blankRanges, blanks.2 < 48 ∨ 57 < blanks.1 := by decide
  rw [isBlank, List.any_eq_false]
  intro blanks member
  have outside := apart blanks member
  rw [Bool.and_eq_true, decide_eq_true_eq, decide_eq_true_eq]
  omega

end Reentrancy.Text
