import Mathlib.Data.List.Forall2
import Reentrancy.Inline.Walk
import Reentrancy.Proofs.Lowering.Arguments
import Reentrancy.Proofs.Text

/-! Values that name the same variables. Put in the place of a parameter they lead to the same
names, whatever versions they read: the text of a value shows its versions only where they
cannot be taken for a part of a name. -/
namespace Reentrancy

namespace Value

/-- What the text of a value shows of the names in it. -/
structure Alike (one two : Value) : Prop where
  compound : one.isCompound = two.isCompound
  whole : Token.whole? one.nameText.toList = Token.whole? two.nameText.toList
  root : Token.root? one.text.toList = Token.root? two.text.toList

theorem Alike.refl (value : Value) : Alike value value := ⟨rfl, rfl, rfl⟩

end Value

section Text

theorem digits_isPart (number : Nat) : ∀ c ∈ (toString number).toList, Token.isPart c = true := by
  intro c member
  rw [Nat.toString_eq_repr, Nat.toList_repr] at member
  have digit := Nat.isDigit_of_mem_toDigits (by decide) (by decide) member
  simp [Token.isPart, digit]

/-- A version is no mark, so it does not change the root of a name. -/
theorem Variable.root?_text (read : Variable) :
    Token.root? read.text.toList = Token.root? read.name.toList := by
  have split : read.text.toList = read.name.toList ++ '_' :: (toString read.version).toList := by
    simp [Variable.text]
  rw [split]
  refine Token.root?_append_parts _ (List.forall_mem_cons.mpr ⟨by decide, ?_⟩)
  exact digits_isPart read.version

namespace Value

theorem root?_nameText (value : Value) :
    Token.root? value.nameText.toList = Token.root? value.text.toList := by
  cases value with
  | var read => rw [nameText, text, read.root?_text]
  | _ => rfl

theorem Alike.nameText {one two : Value} (alike : one.Alike two) :
    Token.Alike one.nameText.toList two.nameText.toList :=
  ⟨alike.whole, by rw [root?_nameText, root?_nameText, alike.root]⟩

theorem Alike.var {one two : Variable} (names : Token.Alike one.name.toList two.name.toList) :
    Alike (.var one) (.var two) where
  compound := rfl
  whole := names.whole
  root := by rw [text, text, one.root?_text, two.root?_text, names.root]

theorem Alike.of_text {one two : Value} (compound : one.isCompound = two.isCompound)
    (first : one.nameText = one.text) (second : two.nameText = two.text)
    (texts : Token.Alike one.text.toList two.text.toList) : one.Alike two :=
  ⟨compound, by rw [first, second, texts.whole], texts.root⟩

theorem Alike.root?_operandText {one two : Value} (alike : one.Alike two) :
    Token.root? one.operandText.toList = Token.root? two.operandText.toList := by
  have opened (text : String) : Token.root? ("(" ++ text ++ ")").toList = none := by
    have split : ("(" ++ text ++ ")").toList = [] ++ '(' :: (text ++ ")").toList := by simp
    rw [split, Token.root?_append_plain _ (by decide) (by decide), Token.root?_parts (by simp)]
  rw [operandText, operandText, enclosed, enclosed, alike.compound]
  split
  · rw [opened, opened]
  · exact alike.root

theorem toList_binary (operator : String) (left right : Value) :
    (binary operator left right).text.toList =
      left.operandText.toList ++ ' ' :: (operator ++ " " ++ right.operandText).toList := by
  simp [text, operandText]

theorem toList_choice (condition yes no : Value) :
    (choice condition yes no).text.toList =
      condition.operandText.toList ++
        ' ' :: ("? " ++ yes.operandText ++ " : " ++ no.operandText).toList := by
  simp [text, operandText]

theorem toList_unary (operator : String) (operand : Value) :
    (unary operator operand).text.toList = operator.toList ++ operand.operandText.toList := by
  simp [text, operandText]

theorem toList_apply (name : String) (arguments : List Value) :
    (apply name arguments).text.toList =
      name.toList ++ '(' :: (", ".intercalate (texts arguments) ++ ")").toList := by
  simp [text]

theorem toList_tuple (items : List Value) :
    (tuple items).text.toList = [] ++ '(' :: (", ".intercalate (texts items) ++ ")").toList := by
  simp [text]

namespace Alike

variable {left right : Value}

theorem binary (operands : left.Alike right) (operator : String) (first second : Value) :
    Alike (.binary operator left first) (.binary operator right second) := by
  refine .of_text rfl rfl rfl ?_
  rw [toList_binary, toList_binary]
  exact .append_plain operands.root?_operandText (by decide) (by decide) _ _

theorem choice (operands : left.Alike right) (yes no first second : Value) :
    Alike (.choice left yes no) (.choice right first second) := by
  refine .of_text rfl rfl rfl ?_
  rw [toList_choice, toList_choice]
  exact .append_plain operands.root?_operandText (by decide) (by decide) _ _

theorem unary {operator : String} (plain : Token.isName operator.toList = false)
    (first second : Value) : Alike (.unary operator first) (.unary operator second) := by
  refine .of_text rfl rfl rfl ?_
  rw [toList_unary, toList_unary]
  exact .operator plain _ _

theorem apply (name : String) (first second : List Value) :
    Alike (.apply name first) (.apply name second) := by
  refine .of_text rfl rfl rfl ?_
  rw [toList_apply, toList_apply]
  exact .append_plain rfl (by decide) (by decide) _ _

theorem tuple (first second : List Value) : Alike (.tuple first) (.tuple second) := by
  refine .of_text rfl rfl rfl ?_
  rw [toList_tuple, toList_tuple]
  exact .append_plain rfl (by decide) (by decide) _ _

end Alike

end Value

end Text

namespace Value

variable {one two : Variable → Option Value}

theorem alike_substitute
    (alike : ∀ read, ((one read).getD (.var read)).Alike ((two read).getD (.var read))) :
    ∀ value : Value, value.Clear → (value.substitute one).Alike (value.substitute two)
  | var read, _ => alike read
  | literal text, _ => .refl (literal text)
  | raw text, _ => .refl (raw text)
  | binary operator left _, clear => (alike_substitute alike left clear).binary operator _ _
  | unary _ _, plain => .unary plain _ _
  | apply name _, _ => .apply name _ _
  | tuple _, _ => .tuple _ _
  | choice condition _ _, clear => (alike_substitute alike condition clear).choice _ _ _ _

mutual

theorem substitute_substitute (one two : Variable → Option Value) : ∀ value : Value,
    (value.substitute one).substitute two =
      value.substitute fun read => some (((one read).getD (.var read)).substitute two)
  | var read => rfl
  | literal _ => rfl
  | raw _ => rfl
  | binary operator left right => by
    simp only [substitute, substitute_substitute one two left, substitute_substitute one two right]
  | unary operator operand => by simp only [substitute, substitute_substitute one two operand]
  | apply name arguments => by
    simp only [substitute, substituteList_substituteList one two arguments]
  | tuple items => by simp only [substitute, substituteList_substituteList one two items]
  | choice condition yes no => by
    simp only [substitute, substitute_substitute one two condition,
      substitute_substitute one two yes, substitute_substitute one two no]

theorem substituteList_substituteList (one two : Variable → Option Value) :
    ∀ values : List Value, substituteList two (substituteList one values) =
      substituteList (fun read => some (((one read).getD (.var read)).substitute two)) values
  | [] => rfl
  | first :: rest => by
    simp only [substituteList, substitute_substitute one two first,
      substituteList_substituteList one two rest]

end

theorem clear_substitute {rule : Variable → Option Value}
    (clear : ∀ read, ((rule read).getD (.var read)).Clear) :
    ∀ value : Value, (value.substitute rule).Clear ↔ value.Clear
  | var read => ⟨fun _ => trivial, fun _ => clear read⟩
  | literal _ => .rfl
  | raw _ => .rfl
  | binary _ left _ => clear_substitute clear left
  | unary _ _ => .rfl
  | apply _ _ => .rfl
  | tuple _ => .rfl
  | choice condition _ _ => clear_substitute clear condition

end Value

section Targets

variable {bindings : Table Value} {name : String}

theorem bindText_name (named : Token.isName name.toList = true)
    (free : name ≠ "" → bindings.get? name = none) : bindText bindings name = name := by
  rw [bindText, Token.replace, Token.replaceFrom_name _ named, Token.renamed, String.ofList_toList]
  split
  · rw [Option.map_none, Option.getD_none, String.ofList_toList]
  next present =>
    rw [free present, Option.map_none, Option.map_none, Option.getD_none, String.ofList_toList]

theorem afterLast_bindText (named : Token.isName name.toList = true)
    (free : name ≠ "" → bindings.get? name = none) {callee : String}
    (called : callee = name ∨ callee = "super." ++ name) :
    Text.afterLast '.' (bindText bindings callee) = name := by
  have absent : '.' ∉ name.toList := by
    intro member
    have part := Token.all_isPart_of_isName named '.' member
    revert part
    decide
  rcases called with rfl | rfl
  · rw [bindText_name named free]
    exact Text.afterLast_of_not_mem absent
  -- Whatever `super` is bound to, the name after the last point is kept.
  · have rest := congrArg String.toList (bindText_name named free)
    rw [bindText, Token.replace, String.toList_ofList] at rest
    have split : ("super." ++ name).toList = "super".toList ++ '.' :: name.toList := by simp
    obtain ⟨front, bound⟩ : ∃ front, (bindText bindings ("super." ++ name)).toList =
        front ++ '.' :: name.toList := by
      rw [bindText, Token.replace, String.toList_ofList, split,
        Token.replaceFrom_name_break _ (by decide) (by decide) (by decide), rest]
      exact ⟨_, rfl⟩
    exact Text.afterLast_of_split bound absent

end Targets

structure Bound (callables : Names) (one two : Table Value) : Prop where
  alike : ∀ name, Option.Rel Value.Alike (one.get? name) (two.get? name)
  named : ∀ name, one.contains name = true → Token.isName name.toList = true
  apart : ∀ name, one.contains name = true → name ≠ "" → callables.contains name = false

namespace Bound

variable {callables : Names} {one two : Table Value} (bound : Bound callables one two)

include bound

theorem contains (name : String) : one.contains name = two.contains name := by
  have related := bound.alike name
  unfold Table.contains
  generalize one.get? name = first, two.get? name = second at related
  cases related <;> rfl

theorem get? {first second : String} (alike : Token.Alike first.toList second.toList) :
    Option.Rel Value.Alike (one.get? first) (two.get? second) := by
  -- Parameters are names, and a name is alike to itself only.
  have same (known : one.contains first = true ∨ two.contains second = true) : first = second := by
    rcases known with known | known
    · exact String.toList_inj.mp (alike.eq_of_isName (bound.named first known))
    · rw [← bound.contains] at known
      exact (String.toList_inj.mp (alike.symm.eq_of_isName (bound.named second known))).symm
  by_cases known : one.contains first = true ∨ two.contains second = true
  · rw [same known]
    exact bound.alike second
  · simp only [not_or, Table.contains, Option.not_isSome_iff_eq_none] at known
    rw [known.1, known.2]
    exact .none

theorem bindText (text : String) :
    Token.Alike (Reentrancy.bindText one text).toList (Reentrancy.bindText two text).toList := by
  rw [Reentrancy.bindText, Reentrancy.bindText, Token.replace, Token.replace, String.toList_ofList,
    String.toList_ofList]
  refine .replaceFrom (fun token => ?_) _
  have related := bound.alike (String.ofList token)
  unfold Token.renamed
  by_cases nothing : String.ofList token = ""
  · simp only [nothing, if_true]
    exact .refl token
  · simp only [nothing, if_false]
    generalize one.get? (String.ofList token) = first, two.get? (String.ofList token) = second
      at related
    cases related with
    | none => exact .refl token
    | some alike => exact alike.nameText

theorem bindVariable (read : Variable) :
    Token.Alike (Reentrancy.bindVariable one read).name.toList
      (Reentrancy.bindVariable two read).name.toList := by
  rw [Reentrancy.bindVariable, Reentrancy.bindVariable, bound.contains]
  split
  · exact .refl _
  · exact bound.bindText read.name

theorem resolve (first second : Region) (read : Variable) :
    (first.resolve one (Reentrancy.bindVariable one read)).Alike
      (second.resolve two (Reentrancy.bindVariable two read)) := by
  have names := bound.bindVariable read
  have version (table : Table Value) :
      (Reentrancy.bindVariable table read).version = read.version := by
    unfold Reentrancy.bindVariable
    split <;> rfl
  rw [Region.resolve, Region.resolve, version, version]
  split
  · have related := bound.get? names
    generalize one.get? (Reentrancy.bindVariable one read).name = found,
      two.get? (Reentrancy.bindVariable two read).name = other at related
    cases related with
    | none => exact .var names
    | some alike => exact alike
  · exact .var names

theorem symm : Bound callables two one where
  alike name := by
    have related := bound.alike name
    generalize one.get? name = first, two.get? name = second at related
    cases related with
    | none => exact .none
    | some alike => exact .some ⟨alike.compound.symm, alike.whole.symm, alike.root.symm⟩
  named name known := bound.named name (bound.contains name ▸ known)
  apart name known := bound.apart name (bound.contains name ▸ known)

theorem afterLast_bindText {name callee : String}
    (named : Token.isName name.toList = true) (known : callables.contains name = true)
    (called : callee = name ∨ callee = "super." ++ name) :
    Text.afterLast '.' (Reentrancy.bindText one callee) = name := by
  refine Reentrancy.afterLast_bindText named (fun present => ?_) called
  cases found : one.get? name with
  | none => rfl
  | some value =>
    have hidden := bound.apart name (by rw [Table.contains, found]; rfl) present
    rw [known] at hidden
    cases hidden

end Bound
end Reentrancy
