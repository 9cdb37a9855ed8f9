import Mathlib.Data.List.TakeWhile
import Reentrancy.Access
import Reentrancy.Inline.Tokens

/-! What a text names. A text can be a name as a whole, or a part of what a name stands for, with
a mark (a point or a bracket) after the name. These two facts decide whether a write goes to a
state variable and whether a read is a parameter; they survive the renaming of tokens as long
as the new texts agree in them. -/
namespace Reentrancy.Token

/-- An identifier, or nothing at all. -/
def isName : List Char → Bool
  | [] => true
  | c :: rest => isStart c && rest.all isPart

def isMark (c : Char) : Bool := c == '.' || c == '['

def whole? (text : List Char) : Option (List Char) := if isName text then some text else none

/-- The name that the first mark of a text follows. -/
def root? (text : List Char) : Option (List Char) :=
  match text.dropWhile isPart with
  | [] => none
  | c :: _ =>
    if isMark c && isName (text.takeWhile isPart) then some (text.takeWhile isPart) else none

structure Alike (one two : List Char) : Prop where
  whole : whole? one = whole? two
  root : root? one = root? two

section Characters

theorem isPart_of_isStart {c : Char} (start : isStart c = true) : isPart c = true := by
  simp [isPart, start]

theorem not_isPart_of_isMark {c : Char} (mark : isMark c = true) : isPart c = false := by
  rw [isMark, Bool.or_eq_true, beq_iff_eq, beq_iff_eq] at mark
  rcases mark with rfl | rfl <;> decide

theorem all_isPart_of_isName {name : List Char} (named : isName name = true) :
    ∀ c ∈ name, isPart c = true := by
  cases name with
  | nil => simp
  | cons first rest =>
    rw [isName, Bool.and_eq_true, List.all_eq_true] at named
    exact List.forall_mem_cons.mpr ⟨isPart_of_isStart named.1, named.2⟩

theorem parts_or_break (text : List Char) :
    (∀ c ∈ text, isPart c = true) ∨
      ∃ front c rest, text = front ++ c :: rest ∧ (∀ d ∈ front, isPart d = true) ∧
        isPart c = false := by
  induction text with
  | nil => exact .inl (by simp)
  | cons first rest ih =>
    cases part : isPart first with
    | false => exact .inr ⟨[], first, rest, rfl, by simp, part⟩
    | true =>
      rcases ih with all | ⟨front, c, others, rfl, parts, breaks⟩
      · exact .inl (List.forall_mem_cons.mpr ⟨part, all⟩)
      · exact .inr ⟨first :: front, c, others, rfl, List.forall_mem_cons.mpr ⟨part, parts⟩, breaks⟩

end Characters

section Root

variable {front : List Char} {c : Char}

theorem takeWhile_break (parts : ∀ d ∈ front, isPart d = true) (breaks : isPart c = false)
    (rest : List Char) : (front ++ c :: rest).takeWhile isPart = front := by
  rw [List.takeWhile_append_of_pos parts, List.takeWhile_cons_of_neg (by simp [breaks]),
    List.append_nil]

theorem dropWhile_break (parts : ∀ d ∈ front, isPart d = true) (breaks : isPart c = false)
    (rest : List Char) : (front ++ c :: rest).dropWhile isPart = c :: rest := by
  rw [List.dropWhile_append_of_pos parts, List.dropWhile_cons_of_neg (by simp [breaks])]

theorem whole?_break (breaks : isPart c = false) (front rest : List Char) :
    whole? (front ++ c :: rest) = none := by
  rw [whole?, if_neg]
  intro named
  have part := all_isPart_of_isName named c (by simp)
  rw [breaks] at part
  cases part

theorem root?_break (parts : ∀ d ∈ front, isPart d = true) (breaks : isPart c = false)
    (rest : List Char) :
    root? (front ++ c :: rest) = if isMark c && isName front then some front else none := by
  rw [root?, takeWhile_break parts breaks, dropWhile_break parts breaks]

theorem root?_parts {text : List Char} (parts : ∀ d ∈ text, isPart d = true) :
    root? text = none := by
  rw [root?, List.dropWhile_eq_nil_iff.mpr parts]

theorem whole?_eq_some {text name : List Char} :
    whole? text = some name ↔ text = name ∧ isName name = true := by
  unfold whole?
  grind

theorem root?_break_eq_some (parts : ∀ d ∈ front, isPart d = true) (breaks : isPart c = false)
    {rest name : List Char} :
    root? (front ++ c :: rest) = some name ↔
      isMark c = true ∧ front = name ∧ isName name = true := by
  rw [root?_break parts breaks]
  grind

theorem root?_append_break (parts : ∀ d ∈ front, isPart d = true) (breaks : isPart c = false)
    (rest more : List Char) : root? (front ++ c :: rest ++ more) = root? (front ++ c :: rest) := by
  rw [List.append_assoc, List.cons_append, root?_break parts breaks, root?_break parts breaks]

theorem root?_append_parts (text : List Char) {more : List Char}
    (parts : ∀ d ∈ more, isPart d = true) : root? (text ++ more) = root? text := by
  rcases parts_or_break text with all | ⟨front, c, rest, rfl, before, breaks⟩
  · rw [root?_parts all, root?_parts]
    intro d member
    exact (List.mem_append.mp member).elim (all d) (parts d)
  · exact root?_append_break before breaks rest more

theorem root?_append_plain (text : List Char) (breaks : isPart c = false) (plain : isMark c = false)
    (rest : List Char) : root? (text ++ c :: rest) = root? text := by
  rcases parts_or_break text with all | ⟨front, d, others, rfl, before, earlier⟩
  · rw [root?_parts all, root?_break all breaks, plain, Bool.false_and, if_neg Bool.false_ne_true]
  · exact root?_append_break before earlier others (c :: rest)

theorem root?_append_mark (text : List Char) (mark : isMark c = true) (rest : List Char) :
    root? (text ++ c :: rest) = (root? text).or (whole? text) := by
  have breaks := not_isPart_of_isMark mark
  rcases parts_or_break text with all | ⟨front, d, others, rfl, before, earlier⟩
  · rw [root?_parts all, root?_break all breaks, mark, Bool.true_and, Option.none_or, whole?]
  · rw [root?_append_break before earlier, whole?_break earlier, Option.or_none]

theorem whole?_operator {operator : List Char} (plain : isName operator = false)
    (operand : List Char) : whole? (operator ++ operand) = none := by
  rw [whole?, if_neg]
  intro named
  cases operator with
  | nil => cases plain
  | cons first rest =>
    rw [List.cons_append, isName, Bool.and_eq_true, List.all_append, Bool.and_eq_true] at named
    rw [isName, named.1, named.2.1] at plain
    cases plain

theorem root?_operator {operator : List Char} (plain : isName operator = false)
    (operand : List Char) : root? (operator ++ operand) = root? operator := by
  rcases parts_or_break operator with all | ⟨front, c, rest, rfl, before, breaks⟩
  · rw [root?_parts all]
    rcases parts_or_break operand with more | ⟨front, c, rest, rfl, before, breaks⟩
    · refine root?_parts fun d member => ?_
      exact (List.mem_append.mp member).elim (all d) (more d)
    · have parts : ∀ d ∈ operator ++ front, isPart d = true := fun d member =>
        (List.mem_append.mp member).elim (all d) (before d)
      have unnamed : isName (operator ++ front) = false := by
        have none := whole?_operator plain front
        rw [whole?] at none
        simpa using none
      rw [← List.append_assoc, root?_break parts breaks, unnamed, Bool.and_false,
        if_neg Bool.false_ne_true]
  · exact root?_append_break before breaks rest operand

end Root

namespace Alike

theorem refl (text : List Char) : Alike text text := ⟨rfl, rfl⟩

variable {one two : List Char}

theorem symm (alike : Alike one two) : Alike two one := ⟨alike.whole.symm, alike.root.symm⟩

theorem eq_of_isName (alike : Alike one two) (named : isName one = true) : one = two := by
  have same := alike.whole.symm.trans (whole?_eq_some.mpr ⟨rfl, named⟩)
  exact (whole?_eq_some.mp same).1.symm

theorem append_break (alike : Alike one two) {c : Char} (breaks : isPart c = false)
    (rest more : List Char) : Alike (one ++ c :: rest) (two ++ c :: more) where
  whole := by rw [whole?_break breaks, whole?_break breaks]
  root := by
    cases mark : isMark c with
    | true => rw [root?_append_mark _ mark, root?_append_mark _ mark, alike.root, alike.whole]
    | false =>
      rw [root?_append_plain _ breaks mark, root?_append_plain _ breaks mark, alike.root]

theorem append_plain (root : root? one = root? two) {c : Char} (breaks : isPart c = false)
    (plain : isMark c = false) (rest more : List Char) :
    Alike (one ++ c :: rest) (two ++ c :: more) where
  whole := by rw [whole?_break breaks, whole?_break breaks]
  root := by rw [root?_append_plain _ breaks plain, root?_append_plain _ breaks plain, root]

theorem operator {operator : List Char} (plain : isName operator = false)
    (rest more : List Char) : Alike (operator ++ rest) (operator ++ more) where
  whole := by rw [whole?_operator plain, whole?_operator plain]
  root := by rw [root?_operator plain, root?_operator plain]

end Alike

section Replace

variable {one two : String → Option String}

def replaceRest (rename : String → Option String) : List Char → List Char
  | [] => []
  | c :: rest => c :: replaceFrom rename [] rest

theorem replaceFrom_token (rename : String → Option String) {token : List Char}
    (started : token ≠ []) (text : List Char) :
    replaceFrom rename token text =
      renamed rename (token.reverse ++ text.takeWhile isPart) ++
        replaceRest rename (text.dropWhile isPart) := by
  induction text generalizing token with
  | nil => simp [replaceFrom, replaceRest]
  | cons c rest ih =>
    have going : token.isEmpty = false := by simpa using started
    rw [replaceFrom, going, if_neg Bool.false_ne_true]
    cases part : isPart c with
    | true =>
      rw [if_pos rfl, ih (List.cons_ne_nil c token), List.takeWhile_cons_of_pos part,
        List.dropWhile_cons_of_pos part, List.reverse_cons, List.append_assoc,
        List.singleton_append]
    | false =>
      rw [if_neg Bool.false_ne_true, List.takeWhile_cons_of_neg (by simp [part]),
        List.dropWhile_cons_of_neg (by simp [part]), List.append_nil, replaceRest]

theorem replaceFrom_name_break (rename : String → Option String) {name : List Char} {c : Char}
    (named : isName name = true) (present : name ≠ []) (breaks : isPart c = false)
    (rest : List Char) :
    replaceFrom rename [] (name ++ c :: rest) =
      renamed rename name ++ c :: replaceFrom rename [] rest := by
  cases name with
  | nil => exact absurd rfl present
  | cons first others =>
    rw [isName, Bool.and_eq_true, List.all_eq_true] at named
    rw [List.cons_append, replaceFrom, List.isEmpty_nil, if_pos rfl, if_pos named.1,
      replaceFrom_token rename (List.cons_ne_nil first []), takeWhile_break named.2 breaks,
      dropWhile_break named.2 breaks]
    rfl

theorem replaceFrom_name (rename : String → Option String) {name : List Char}
    (named : isName name = true) : replaceFrom rename [] name = renamed rename name := by
  cases name with
  | nil => rfl
  | cons first others =>
    rw [isName, Bool.and_eq_true, List.all_eq_true] at named
    rw [replaceFrom, List.isEmpty_nil, if_pos rfl, if_pos named.1,
      replaceFrom_token rename (List.cons_ne_nil first []),
      List.takeWhile_eq_self_iff.mpr named.2, List.dropWhile_eq_nil_iff.mpr named.2, replaceRest,
      List.append_nil]
    rfl

theorem Alike.replaceFrom (tokens : ∀ token, Alike (renamed one token) (renamed two token))
    (text : List Char) : Alike (replaceFrom one [] text) (replaceFrom two [] text) := by
  cases text with
  | nil => exact tokens []
  | cons c rest =>
    have first (rename : String → Option String) : Token.replaceFrom rename [] (c :: rest) =
        if isStart c then Token.replaceFrom rename [c] rest
        else c :: Token.replaceFrom rename [] rest := by
      rw [Token.replaceFrom, List.isEmpty_nil, if_pos rfl]
    rw [first, first]
    cases start : isStart c with
    | true =>
      -- After the first token comes a break, and then nothing matters.
      rw [if_pos rfl, if_pos rfl, replaceFrom_token one (List.cons_ne_nil c []),
        replaceFrom_token two (List.cons_ne_nil c [])]
      have alike := tokens ([c].reverse ++ rest.takeWhile isPart)
      cases after : rest.dropWhile isPart with
      | nil => simpa only [replaceRest, List.append_nil] using alike
      | cons next others =>
        have breaks : isPart next = false := by
          simpa [after] using List.head_dropWhile_not isPart (l := rest) (by simp [after])
        exact alike.append_break breaks _ _
    | false =>
      rw [if_neg Bool.false_ne_true, if_neg Bool.false_ne_true]
      cases part : isPart c with
      | true =>
        -- A digit in front, so neither text can be a name.
        have unnamed : isName [c] = false := by rw [isName, start, Bool.false_and]
        exact .operator unnamed _ _
      | false => exact (Alike.refl []).append_break part _ _

end Replace

section Base

theorem baseName_toList (text : String) :
    (baseName text).toList = text.toList.takeWhile fun c => !isMark c := by
  rw [baseName, String.toList_ofList]
  congr
  funext c
  rw [isMark, Bool.not_or, bne, bne]

theorem not_isMark_of_parts {front : List Char} (parts : ∀ d ∈ front, isPart d = true) :
    ∀ d ∈ front, (!isMark d) = true := by
  intro d member
  cases mark : isMark d with
  | false => rfl
  | true => exact absurd (parts d member) (by simp [not_isPart_of_isMark mark])

theorem baseName_eq_iff {text name : String} (named : isName name.toList = true) :
    baseName text = name ↔
      whole? text.toList = some name.toList ∨ root? text.toList = some name.toList := by
  rw [← String.toList_inj, baseName_toList]
  rcases parts_or_break text.toList with all | ⟨front, c, rest, split, before, breaks⟩
  · rw [List.takeWhile_eq_self_iff.mpr (not_isMark_of_parts all), root?_parts all, whole?_eq_some]
    simp [named]
  · rw [split, List.takeWhile_append_of_pos (not_isMark_of_parts before), whole?_break breaks,
      root?_break_eq_some before breaks]
    cases mark : isMark c with
    | true =>
      rw [List.takeWhile_cons_of_neg (by simp [mark]), List.append_nil]
      simp [named]
    | false =>
      rw [List.takeWhile_cons_of_pos (by simp [mark])]
      -- The base goes on after the break, but a name has no break in it.
      have other : front ++ c :: rest.takeWhile (fun d => !isMark d) ≠ name.toList := by
        intro same
        have part := all_isPart_of_isName named c (by simp [← same])
        rw [breaks] at part
        cases part
      simp [other]

end Base

end Reentrancy.Token
