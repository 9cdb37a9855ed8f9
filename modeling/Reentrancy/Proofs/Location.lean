import Reentrancy.Location
import Reentrancy.Proofs.Text

/-! Locations and their text. Numbers of a location are 64-bit words whatever text it is read from,
and the text of a location with such numbers is read as this location. -/
namespace Reentrancy.Location

theorem part_toString {value : Int} (bounded : Text.InWord value) :
    part (toString value).toList = value := by
  have solid : ∀ c ∈ (toString value).toList, Text.isBlank c = false := by
    intro c member
    rcases Text.mem_toString member with rfl | digit
    · decide
    · exact Text.isBlank_of_isDigit digit
  rw [part, Text.trim_eq_self solid, Text.word?_toString bounded, Option.getD_some]

theorem part_inWord (text : List Char) : Text.InWord (part text) := by
  rw [part]
  cases found : Text.word? (Text.trim text) with
  | none => exact ⟨by decide, by decide⟩
  | some value =>
    rw [Text.word?, Option.filter_eq_some_iff] at found
    exact of_decide_eq_true found.2

theorem colon_not_mem (value : Int) : ':' ∉ (toString value).toList := by
  intro member
  rcases Text.mem_toString member with same | digit
  · cases same
  · cases digit

structure InWords (location : Location) : Prop where
  offset : Text.InWord location.offset
  length : Text.InWord location.length
  file : Text.InWord location.file

theorem ofText_text {location : Location} (bounded : location.InWords) :
    ofText location.text = location := by
  have chars : location.text.toList = (toString location.offset).toList ++ ':' ::
      ((toString location.length).toList ++ ':' :: (toString location.file).toList) := by
    simp [text]
  rw [ofText, chars, Text.pieces_append, Text.pieces_append,
    Text.pieces_of_not_mem (colon_not_mem location.offset),
    Text.pieces_of_not_mem (colon_not_mem location.length),
    Text.pieces_of_not_mem (colon_not_mem location.file)]
  simp only [List.cons_append, List.nil_append, List.map_cons, List.map_nil,
    part_toString bounded.offset, part_toString bounded.length, part_toString bounded.file]
  rfl

theorem ofText_inWords (text : String) : (ofText text).InWords := by
  have inside (index : Nat) :
      Text.InWord (((Text.pieces ':' text.toList).map part)[index]?.getD 0) := by
    rw [List.getElem?_map]
    cases (Text.pieces ':' text.toList)[index]? with
    | none => exact ⟨by decide, by decide⟩
    | some piece => exact part_inWord piece
  exact ⟨inside 0, inside 1, inside 2⟩

/-- The text of 64-bit numbers is read back as they are, the least and the greatest of them
included. Whatever text a location is read from, its numbers are such numbers, so writing and
reading it again changes nothing. -/
theorem text_roundTrip :
    (∀ offset length file : Int64,
      ofText (text ⟨offset.toInt, length.toInt, file.toInt⟩) =
        ⟨offset.toInt, length.toInt, file.toInt⟩) ∧
    ∀ source : String, ofText (ofText source).text = ofText source ∧ (ofText source).InWords := by
  have word (value : Int64) : Text.InWord value.toInt :=
    ⟨value.le_toInt, Int.le_of_lt_add_one value.toInt_lt⟩
  constructor
  · intro offset length file
    exact ofText_text ⟨word offset, word length, word file⟩
  · intro source
    exact ⟨ofText_text (ofText_inWords source), ofText_inWords source⟩

end Reentrancy.Location
