import Reentrancy.Location

/-! Line and column of a byte offset. The search through the lines finds every offset inside the
source: the line feeds before the offset give the line, the bytes from the start of this line on the
column. So positions are in the order of their offsets. -/
namespace Reentrancy

namespace Text

def lineFeed : UInt8 := 10

def bytesOf (text : List Char) : List UInt8 := text.flatMap String.utf8EncodeChar

theorem lineFeed_ne_ofNat {value : Nat} (high : 128 ≤ value) (low : value < 256) :
    lineFeed ≠ UInt8.ofNat value := by
  intro same
  have equal : 10 = value % 256 := by simpa [lineFeed] using congrArg UInt8.toNat same
  omega

/-- The byte of a line feed stands in no other character. -/
theorem lineFeed_mem_utf8EncodeChar {c : Char} :
    lineFeed ∈ String.utf8EncodeChar c ↔ c = '\n' := by
  constructor
  · intro member
    rw [String.utf8EncodeChar] at member
    split at member
    next =>
      have code : 10 = c.val.toNat % 256 := by
        simpa [lineFeed] using congrArg UInt8.toNat (List.mem_singleton.mp member)
      exact Char.ext (UInt32.toNat_inj.mp (by omega : c.val.toNat = 10))
    -- Characters of two, three and four bytes have only bytes from 128 on.
    next =>
      split at member
      · rw [List.mem_cons, List.mem_singleton] at member
        rcases member with same | same <;>
          exact absurd same (lineFeed_ne_ofNat (by omega) (by omega))
      · split at member
        · rw [List.mem_cons, List.mem_cons, List.mem_singleton] at member
          rcases member with same | same | same <;>
            exact absurd same (lineFeed_ne_ofNat (by omega) (by omega))
        · rw [List.mem_cons, List.mem_cons, List.mem_cons, List.mem_singleton] at member
          rcases member with same | same | same | same <;>
            exact absurd same (lineFeed_ne_ofNat (by omega) (by omega))
  · rintro rfl
    decide

theorem bytes_toList (source : String) :
    source.toByteArray.data.toList = bytesOf source.toList := by
  rw [← String.utf8Encode_toList]
  simp [List.utf8Encode, bytesOf]

theorem length_bytesOf (text : List Char) :
    (bytesOf text).length = (String.ofList text).utf8ByteSize := by
  rw [← String.size_toByteArray, String.toByteArray_ofList]
  simp [List.utf8Encode, bytesOf]

theorem lineFeed_mem_bytesOf {text : List Char} : lineFeed ∈ bytesOf text ↔ '\n' ∈ text := by
  simp only [bytesOf, List.mem_flatMap, lineFeed_mem_utf8EncodeChar, exists_eq_right]

theorem bytesOf_append (front back : List Char) :
    bytesOf (front ++ back) = bytesOf front ++ bytesOf back := List.flatMap_append

theorem bytesOf_line (front : List Char) :
    bytesOf (front ++ ['\n']) = bytesOf front ++ [lineFeed] := bytesOf_append _ _

theorem count_line {front : List Char} (quiet : '\n' ∉ front) :
    (bytesOf (front ++ ['\n'])).count lineFeed = 1 := by
  have none : lineFeed ∉ bytesOf front := fun member => quiet (lineFeed_mem_bytesOf.mp member)
  rw [bytesOf_line, List.count_append, List.count_eq_zero_of_not_mem none,
    List.count_singleton_self]

theorem lineFeed_not_mem_dropLast {line : List Char} (quiet : '\n' ∉ line.dropLast) :
    lineFeed ∉ (bytesOf line).dropLast := by
  rcases List.eq_nil_or_concat line with rfl | ⟨front, last, rfl⟩
  · simp [bytesOf]
  · rw [List.concat_eq_append, List.dropLast_concat] at quiet
    have front_quiet : lineFeed ∉ bytesOf front := fun member =>
      quiet (lineFeed_mem_bytesOf.mp member)
    have single : bytesOf [last] = String.utf8EncodeChar last := by simp [bytesOf]
    rw [List.concat_eq_append, bytesOf_append, single,
      List.dropLast_append_of_ne_nil String.utf8EncodeChar_ne_nil, List.mem_append, not_or]
    refine ⟨front_quiet, fun member => ?_⟩
    obtain rfl := lineFeed_mem_utf8EncodeChar.mp (List.dropLast_subset _ member)
    cases member

end Text

open Text

/-- The byte at which the line of an offset starts: a line feed ends just before it, or the text
starts there, and none stands between it and the offset. -/
structure LineStart (bytes : List UInt8) (offset start : Nat) : Prop where
  reached : start ≤ offset
  opens : start = 0 ∨ bytes[start - 1]? = some lineFeed
  quiet : ∀ index, start ≤ index → index < offset → bytes[index]? ≠ some lineFeed

theorem LineStart.unique {bytes : List UInt8} {offset one two : Nat}
    (first : LineStart bytes offset one) (second : LineStart bytes offset two) : one = two := by
  have le {start other : Nat} (this : LineStart bytes offset start)
      (that : LineStart bytes offset other) : start ≤ other := by
    rcases this.opens with zero | feed
    · omega
    · rcases Nat.lt_or_ge other start with before | behind
      · have reached := this.reached
        exact absurd feed (that.quiet (start - 1) (by omega) (by omega))
      · exact behind
  exact Nat.le_antisymm (le first second) (le second first)

namespace Position

structure At (position : Position) (bytes : List UInt8) (offset : Nat) : Prop where
  line : position.line = (bytes.take offset).count lineFeed + 1
  column : ∃ start, LineStart bytes offset start ∧ position.column = offset - start + 1

theorem at_of_line {before after : List UInt8} {line : List Char} {offset : Nat}
    (opens : before = [] ∨ before.getLast? = some lineFeed) (quiet : '\n' ∉ line.dropLast)
    (reached : before.length ≤ offset) (inside : offset < before.length + (bytesOf line).length) :
    At ⟨before.count lineFeed + 1, offset - before.length + 1⟩
      (before ++ (bytesOf line ++ after)) offset := by
  have none : lineFeed ∉ (bytesOf line).take (offset - before.length) := by
    intro member
    refine lineFeed_not_mem_dropLast quiet ?_
    rw [List.dropLast_eq_take]
    exact List.take_subset_take_left _ (by omega) member
  constructor
  · rw [List.take_append, List.take_of_length_le reached,
      List.take_append_of_le_length (by omega), List.count_append,
      List.count_eq_zero_of_not_mem none, Nat.add_zero]
  · refine ⟨before.length, ⟨reached, ?_, ?_⟩, rfl⟩
    · rcases opens with rfl | feed
      · exact .inl rfl
      · have filled : 0 < before.length :=
          List.length_pos_of_mem (List.mem_of_getLast? feed)
        rw [List.getElem?_append_left (by omega), ← List.getLast?_eq_getElem?]
        exact .inr feed
    · intro index low high feed
      rw [List.getElem?_append_right low, List.getElem?_append_left (by omega),
        ← List.getElem?_take_of_lt (Nat.sub_lt_sub_right low high)] at feed
      exact none (List.mem_of_getElem? feed)

/-- The search goes through the lines with all bytes before them in `before`, which are as many as
the line starts at, and hold as many line feeds as there are lines. -/
theorem find?_linesFrom {offset : Nat} (rest : List Char) {seen : List Char} {before : List UInt8}
    (fresh : '\n' ∉ seen) (opens : before = [] ∨ before.getLast? = some lineFeed)
    (reached : before.length ≤ offset)
    (inside : offset < (before ++ bytesOf (seen.reverse ++ rest)).length) :
    ∃ position, find? offset (before.count lineFeed + 1) before.length (linesFrom seen rest) =
      some position ∧ position.At (before ++ bytesOf (seen.reverse ++ rest)) offset := by
  induction rest generalizing seen before with
  | nil =>
    rw [List.append_nil] at inside ⊢
    rw [List.length_append] at inside
    have filled : ¬seen.isEmpty = true := by
      intro empty
      rw [List.isEmpty_iff.mp empty] at inside
      exact Nat.not_lt.mpr reached inside
    rw [linesFrom, if_neg filled, find?, ← length_bytesOf, if_pos inside]
    refine ⟨_, rfl, ?_⟩
    rw [← List.append_nil (bytesOf seen.reverse)]
    exact at_of_line opens (fun member => fresh (by simpa using List.dropLast_subset _ member))
      reached inside
  | cons c rest ih =>
    rw [linesFrom]
    split
    next feed =>
      subst feed
      have line : ('\n' :: seen).reverse = seen.reverse ++ ['\n'] := List.reverse_cons
      have bytes : bytesOf (seen.reverse ++ '\n' :: rest) =
          bytesOf (seen.reverse ++ ['\n']) ++ bytesOf rest := by
        rw [← bytesOf_append, List.append_assoc, List.singleton_append]
      rw [line, find?, ← length_bytesOf]
      rw [bytes] at inside ⊢
      split
      next here =>
        refine ⟨_, rfl, at_of_line opens ?_ reached here⟩
        rwa [List.dropLast_concat, List.mem_reverse]
      next later =>
        have single := count_line (fun member => fresh (List.mem_reverse.mp member))
        have ended : (before ++ bytesOf (seen.reverse ++ ['\n'])).getLast? = some lineFeed := by
          rw [bytesOf_line, ← List.append_assoc, List.getLast?_concat]
        have behind := @ih [] (before ++ bytesOf (seen.reverse ++ ['\n'])) List.not_mem_nil
          (.inr ended) (by rw [List.length_append]; omega) (by simpa using inside)
        rwa [List.count_append, single, List.length_append, List.append_assoc] at behind
    next other =>
      have moved : (c :: seen).reverse ++ rest = seen.reverse ++ c :: rest := by simp
      rw [← moved] at inside ⊢
      exact ih (by simp [Ne.symm other, fresh]) opens reached inside

def Before (one two : Position) : Prop :=
  one.line < two.line ∨ one.line = two.line ∧ one.column < two.column

theorem Before.asymm {one two : Position} (before : one.Before two) : ¬two.Before one := by
  unfold Before at *
  omega

section Order

variable {bytes : List UInt8} {first second : Nat} {one two : Position}

theorem At.unique (here : one.At bytes first) (there : two.At bytes first) : one = two := by
  obtain ⟨start, begins, column⟩ := here.column
  obtain ⟨other, starts, behind⟩ := there.column
  obtain rfl := begins.unique starts
  cases one
  cases two
  rw [mk.injEq]
  exact ⟨here.line.trans there.line.symm, column.trans behind.symm⟩

variable (here : one.At bytes first) (there : two.At bytes second)

include here there

theorem At.before (less : first < second) : one.Before two := by
  obtain ⟨start, begins, column⟩ := here.column
  obtain ⟨other, starts, behind⟩ := there.column
  have reached := begins.reached
  have parts : bytes.take second =
      bytes.take first ++ (bytes.drop first).take (second - first) := by
    rw [← List.take_add, Nat.add_sub_cancel' (Nat.le_of_lt less)]
  have line := here.line
  have later := there.line
  rw [parts, List.count_append] at later
  rcases Nat.eq_zero_or_pos (((bytes.drop first).take (second - first)).count lineFeed) with
    none | some
  -- Without a line feed between them both are in one line.
  · have begun : LineStart bytes second start := by
      refine ⟨by omega, begins.opens, fun index low high feed => ?_⟩
      rcases Nat.lt_or_ge index first with early | late
      · exact begins.quiet index low early feed
      · refine List.count_eq_zero.mp none (List.mem_of_getElem? (i := index - first) ?_)
        rw [List.getElem?_take_of_lt (by omega), List.getElem?_drop, Nat.add_sub_cancel' late, feed]
    have same := begun.unique starts
    exact .inr ⟨by omega, by omega⟩
  · exact .inl (by omega)

theorem At.before_iff : first < second ↔ one.Before two := by
  refine ⟨here.before there, fun before => ?_⟩
  rcases Nat.lt_trichotomy first second with less | rfl | more
  · exact less
  · obtain rfl := here.unique there
    exact absurd before before.asymm
  · exact absurd (there.before here more) before.asymm

theorem At.eq_iff : first = second ↔ one = two := by
  constructor
  · rintro rfl
    exact here.unique there
  · rintro rfl
    rcases Nat.lt_trichotomy first second with less | same | more
    · exact absurd (here.before there less) (here.before there less).asymm
    · exact same
    · exact absurd (there.before here more) (there.before here more).asymm

end Order

theorem ofOffset_of_lt {source : String} {offset : Nat} (inside : offset < source.utf8ByteSize) :
    find? offset 1 0 (lines source) = some (ofOffset offset source) ∧
      (ofOffset offset source).At source.toByteArray.data.toList offset := by
  have size : (bytesOf source.toList).length = source.utf8ByteSize := by
    rw [length_bytesOf, String.ofList_toList]
  obtain ⟨position, found, place⟩ := @find?_linesFrom offset source.toList [] [] List.not_mem_nil
    (.inl rfl) (Nat.zero_le offset) (size ▸ inside)
  have search : find? offset 1 0 (lines source) = some position := found
  have whole : ofOffset offset source = position := by
    rw [ofOffset, if_neg (by omega), Int.toNat_natCast, search, Option.getD_some]
  rw [whole, bytes_toList]
  exact ⟨search, place⟩

/-- For an offset inside the source the search succeeds, with the line and the column of the offset,
so that positions are ordered as the offsets are and differ where these do. Any other offset has the
position of the start. -/
theorem ofOffset_exact (source : String) :
    (∀ offset : Nat, offset < source.utf8ByteSize →
      find? offset 1 0 (lines source) = some (ofOffset offset source) ∧
        (ofOffset offset source).At source.toByteArray.data.toList offset) ∧
    (∀ first second : Nat, first < source.utf8ByteSize → second < source.utf8ByteSize →
      (first < second ↔ (ofOffset first source).Before (ofOffset second source)) ∧
        (first = second ↔ ofOffset first source = ofOffset second source)) ∧
    ∀ offset : Int, offset < 0 ∨ source.utf8ByteSize ≤ offset → ofOffset offset source = start := by
  refine ⟨fun offset => ofOffset_of_lt, ?_, ?_⟩
  · intro first second low high
    have here := (ofOffset_of_lt low).2
    have there := (ofOffset_of_lt high).2
    exact ⟨here.before_iff there, here.eq_iff there⟩
  · intro offset outside
    rw [ofOffset, if_pos outside]

/-- The last two bytes of a source with a character of two bytes and an empty line. -/
theorem last_bytes_ordered :
    (5 : Nat) < "é\n\nab".utf8ByteSize ∧
      find? 5 1 0 (lines "é\n\nab") = some (ofOffset 5 "é\n\nab") ∧
      ofOffset 5 "é\n\nab" = ⟨3, 2⟩ ∧
      (ofOffset 4 "é\n\nab").Before (ofOffset 5 "é\n\nab") ∧ ofOffset 6 "é\n\nab" = start := by
  have places := ofOffset_exact "é\n\nab"
  have inside : (5 : Nat) < "é\n\nab".utf8ByteSize := by decide
  refine ⟨inside, (places.1 5 inside).1, by decide, ?_, places.2.2 6 (by decide)⟩
  exact (places.2.1 4 5 (by decide) inside).1.mp (by decide)

end Position

end Reentrancy
