import Mathlib.Data.List.Chain
import Reentrancy.Proofs.Detector.Hits
import Reentrancy.Proofs.Lowering.Parentheses

/-! The names of locations. A location is an identifier with members and elements taken of it one
after another, and the names on its path are the texts on the way. Each of them goes on from the one
before it with a mark that no plain name contains, so the root can be read off all of them, and no
assignment to a part of a state variable escapes the detector. -/
namespace Reentrancy

/-- A name without the marks that composite names have behind their root. -/
def PlainName (name : String) : Prop := '.' ∉ name.toList ∧ '[' ∉ name.toList

instance (name : String) : Decidable (PlainName name) := inferInstanceAs (Decidable (_ ∧ _))

theorem baseName_of_split {text root : String} {rest : List Char}
    (split : text.toList = root.toList ++ rest) (plain : PlainName root)
    (marked : ∀ c, rest.head? = some c → c = '.' ∨ c = '[') : baseName text = root := by
  have inside : ∀ c ∈ root.toList, (c != '.' && c != '[') = true := by
    intro c member
    have noDot : c ≠ '.' := fun same => plain.1 (same ▸ member)
    have noBracket : c ≠ '[' := fun same => plain.2 (same ▸ member)
    simp [noDot, noBracket]
  have stops : rest.takeWhile (fun c => c != '.' && c != '[') = [] := by
    cases rest with
    | nil => rfl
    | cons c later =>
      apply List.takeWhile_cons_of_neg
      rcases marked c rfl with rfl | rfl <;> decide
  rw [baseName, split, List.takeWhile_append_of_pos inside, stops, List.append_nil,
    String.ofList_toList]

namespace Expression

def base? : Expression → Option Expression
  | member base _ _ => some base
  | index base _ _ _ => some base
  | _ => none

/-- A location, by the name of the identifier that it starts from. -/
inductive RootedAt (root : String) : Expression → Prop where
  | identifier (predefined : Bool) : RootedAt root (.identifier root predefined)
  | member {base : Expression} (inner : RootedAt root base) (type name : String) :
      RootedAt root (.member base type name)
  | index {base : Expression} (inner : RootedAt root base) (key lower upper : Expression) :
      RootedAt root (.index base key lower upper)

theorem RootedAt.isLocation {root : String} {expression : Expression}
    (rooted : RootedAt root expression) : expression.isLocation = true := by
  induction rooted with
  | identifier => rfl
  | member _ _ _ ih => exact ih
  | index _ _ _ _ ih => exact ih

theorem exists_rootedAt : ∀ {expression : Expression}, expression.isLocation = true →
    ∃ root, RootedAt root expression
  | .identifier name predefined, _ => ⟨name, .identifier predefined⟩
  | .member _ type name, location =>
    have ⟨root, inner⟩ := exists_rootedAt (by simpa [isLocation] using location)
    ⟨root, .member inner type name⟩
  | .index _ key lower upper, location =>
    have ⟨root, inner⟩ := exists_rootedAt (by simpa [isLocation] using location)
    ⟨root, .index inner key lower upper⟩

theorem path_ne_nil_iff (expression : Expression) :
    expression.path ≠ [] ↔ expression.isLocation = true := by
  cases expression with
  | member base => by_cases inner : base.isLocation = true <;> simp [path, isLocation, inner]
  | index base => by_cases inner : base.isLocation = true <;> simp [path, isLocation, inner]
  | _ => simp [path, isLocation]

/-- The way from the root of a location to the location: each expression is taken of the one before
it. -/
structure Steps (root : String) (expression : Expression) (steps : List Expression) : Prop where
  first : ∃ predefined, steps.head? = some (identifier root predefined)
  last : steps.getLast? = some expression
  follows : steps.IsChain fun inner outer => outer.base? = some inner

theorem Steps.extend {root : String} {inner outer : Expression} {steps : List Expression}
    (walked : Steps root inner steps) (taken : outer.base? = some inner) :
    Steps root outer (steps ++ [outer]) where
  first := by
    obtain ⟨predefined, starts⟩ := walked.first
    exact ⟨predefined, by rw [List.head?_append, starts, Option.some_or]⟩
  last := List.getLast?_concat
  follows := by
    refine List.isChain_append.mpr ⟨walked.follows, .singleton _, ?_⟩
    intro last ending next leading
    obtain rfl : inner = last := Option.some.inj (walked.last.symm.trans ending)
    obtain rfl : outer = next := Option.some.inj leading
    exact taken

theorem text_of_base? {inner outer : Expression} (taken : outer.base? = some inner) :
    ∃ rest, rest ≠ "" ∧ outer.text = inner.text ++ rest := by
  cases outer with
  | member base type name =>
    obtain rfl := Option.some.inj taken
    exact ⟨"." ++ name, by simp, by rw [text, String.append_assoc]⟩
  | index base key lower upper =>
    obtain rfl := Option.some.inj taken
    refine ⟨"[" ++ (key.text ++ "]"), by simp, ?_⟩
    rw [text, String.append_assoc, String.append_assoc]
  | _ => cases taken

namespace RootedAt

variable {root : String} {expression : Expression} (rooted : RootedAt root expression)

include rooted

theorem exists_steps : ∃ steps, Steps root expression steps ∧
    expression.path = steps.map text ∧ ∀ step ∈ steps, RootedAt root step := by
  induction rooted with
  | identifier predefined =>
    refine ⟨[.identifier root predefined], ⟨⟨predefined, rfl⟩, rfl, .singleton _⟩, rfl, ?_⟩
    simpa using RootedAt.identifier predefined
  | member inner type name ih =>
    obtain ⟨steps, walked, texts, all⟩ := ih
    refine ⟨_, walked.extend rfl, ?_, ?_⟩
    · rw [path, if_pos inner.isLocation, texts, List.map_append, List.map_singleton]
    · rw [List.forall_mem_append]
      exact ⟨all, by simpa using inner.member type name⟩
  | index inner key lower upper ih =>
    obtain ⟨steps, walked, texts, all⟩ := ih
    refine ⟨_, walked.extend rfl, ?_, ?_⟩
    · rw [path, if_pos inner.isLocation, texts, List.map_append, List.map_singleton]
    · rw [List.forall_mem_append]
      exact ⟨all, by simpa using inner.index key lower upper⟩

theorem text_split : ∃ rest, expression.text.toList = root.toList ++ rest ∧
    ∀ c, rest.head? = some c → c = '.' ∨ c = '[' := by
  induction rooted with
  | identifier => exact ⟨[], by simp [text], by simp⟩
  | member _ type name ih =>
    obtain ⟨rest, split, marked⟩ := ih
    refine ⟨rest ++ '.' :: name.toList, by simp [text, String.toList_append, split], ?_⟩
    intro c leading
    cases rest with
    | nil => exact .inl (by simpa using leading.symm)
    | cons first later => exact marked c leading
  | index _ key lower upper ih =>
    obtain ⟨rest, split, marked⟩ := ih
    refine ⟨rest ++ '[' :: (key.text.toList ++ [']']),
      by simp [text, String.toList_append, split], ?_⟩
    intro c leading
    cases rest with
    | nil => exact .inr (by simpa using leading.symm)
    | cons first later => exact marked c leading

theorem baseName_text (plain : PlainName root) : baseName expression.text = root := by
  obtain ⟨rest, split, marked⟩ := rooted.text_split
  exact baseName_of_split split plain marked

theorem baseName_path (plain : PlainName root) :
    ∀ part ∈ expression.path, baseName part = root := by
  obtain ⟨steps, _, texts, all⟩ := rooted.exists_steps
  rw [texts]
  intro part member
  obtain ⟨step, inside, rfl⟩ := List.mem_map.mp member
  exact (all step inside).baseName_text plain

theorem path_spells :
    expression.path.head? = some root ∧
      expression.path.getLast? = some expression.locationName ∧
      expression.locationName = expression.text ∧
      (expression.path.IsChain fun inner outer => ∃ rest, rest ≠ "" ∧ outer = inner ++ rest) ∧
      ∃ steps, Steps root expression steps ∧ expression.path = steps.map text := by
  obtain ⟨steps, walked, texts, _⟩ := rooted.exists_steps
  obtain ⟨predefined, starts⟩ := walked.first
  have named := locationName_eq_text expression
  refine ⟨?_, ?_, named, ?_, steps, walked, texts⟩
  · rw [texts, List.head?_map, starts]
    rfl
  · rw [texts, List.getLast?_map, walked.last, named]
    rfl
  · rw [texts, List.isChain_map]
    exact walked.follows.imp fun _ _ taken => text_of_base? taken

end RootedAt

/-- An expression that stores to the target: an assignment to it, alone or in a tuple, or a step. -/
inductive Assigns (target : Expression) : Expression → Prop where
  | whole (operator : String) (value : Expression) : Assigns target (.assign operator target value)
  | component (operator : String) {isArray : Bool} {components : List Expression}
      (member : target ∈ components) (value : Expression) :
      Assigns target (.assign operator (.tuple isArray components) value)
  | step {operator : String} (writes : writesOperand operator = true) (leading : Bool) :
      Assigns target (.unary operator leading target)

end Expression

def Instruction.Stores (target : Expression) (instruction : Instruction) : Prop :=
  ∃ assignment, instruction = .assign assignment ∧ assignment.target.name = target.locationName

namespace Lower

variable {α β : Type} {wanted : Instruction → Prop}

def Emits (step : Lower α) (wanted : Instruction → Prop) : Prop :=
  ∀ versions, ∃ instruction ∈ (step versions).emission.instructions, wanted instruction

theorem Emits.early {first : Lower α} (emits : Emits first wanted) (next : α → Lower β) :
    Emits (first >>= next) wanted := by
  intro versions
  obtain ⟨instruction, member, holds⟩ := emits versions
  exact ⟨instruction, List.mem_append_left _ member, holds⟩

theorem Emits.late (first : Lower α) {next : α → Lower β}
    (emits : ∀ value, Emits (next value) wanted) : Emits (first >>= next) wanted := by
  intro versions
  obtain ⟨instruction, member, holds⟩ :=
    emits (first versions).value (first versions).versions
  exact ⟨instruction, List.mem_append_right _ member, holds⟩

theorem store_emits (target : Expression) (operator : String) (value : Value) :
    Emits (store target operator value) (Instruction.Stores target) := by
  intro versions
  rw [store_apply]
  exact ⟨_, List.mem_singleton_self _, _, rfl, Update.target_storeAssignment ..⟩

end Lower

namespace Expression

section Lowering

variable {root : String} {target : Expression} (rooted : RootedAt root target) (scope : Scope)

include rooted

theorem storeComponents_emits (part : Nat → Value) (index : Nat) {components : List Expression}
    (member : target ∈ components) :
    Lower.Emits (storeComponents scope part index components) (Instruction.Stores target) := by
  induction components generalizing index with
  | nil => cases member
  | cons first rest ih =>
    rw [storeComponents]
    rcases List.mem_cons.mp member with rfl | later
    · rw [isMissing_of_isLocation rooted.isLocation]
      exact .late _ fun _ => (Lower.store_emits target "" (part index)).early _
    · split
      · exact ih (index + 1) later
      · exact .late _ fun _ => .late _ fun _ => (ih (index + 1) later).early _

theorem Assigns.emits {assigning : Expression} (assigns : Assigns target assigning) :
    Lower.Emits (assigning.lower scope) (Instruction.Stores target) := by
  have present := isMissing_of_isLocation rooted.isLocation
  cases assigns with
  | whole operator value =>
    rw [lower, Lower.ite_then]
    refine .late _ fun stored => ?_
    cases rooted <;> exact .late _ fun _ => (Lower.store_emits _ _ stored).early _
  | component operator member value =>
    rw [lower, Lower.ite_then]
    exact .late _ fun stored => (storeComponents_emits rooted scope _ 0 member).early _
  | step writes leading =>
    rw [lower, present, if_neg Bool.false_ne_true]
    split
    · exact .late _ fun _ => .late _ fun _ => (Lower.store_emits target _ _).early _
    next counts =>
      rw [if_pos ((writesOperand_iff.mp writes).resolve_left counts)]
      exact .late _ fun _ => (Lower.store_emits target _ _).early _

end Lowering

/-- How assignments to a location come about, and that the detector takes each of them for a write
of the state variable `root`. -/
structure Recognized (target : Expression) (state : Names) (root : String) : Prop where
  stored : ∀ assigning, Assigns target assigning → ∀ scope versions,
    ∃ instruction ∈ (assigning.lower scope versions).emission.instructions,
      instruction.Stores target
  written : ∀ instruction : Instruction, instruction.Stores target →
    instruction.stateWrite? state = some root
  hit : ∀ (pieces : List Piece) (index : Nat) (piece : Piece), pieces[index]? = some piece →
    ∀ instruction ∈ piece.instructions, instruction.Stores target →
      ∃ hit ∈ stateWrites state pieces, hit.position = index ∧ hit.id = piece.id

theorem RootedAt.recognized {root : String} {target : Expression} (rooted : RootedAt root target)
    (plain : PlainName root) {state : Names} (known : state.contains root = true) :
    Recognized target state root := by
  have written (instruction : Instruction) (stores : instruction.Stores target) :
      instruction.stateWrite? state = some root := by
    obtain ⟨assignment, rfl, named⟩ := stores
    rw [Instruction.stateWrite?_eq_some]
    refine ⟨assignment, rfl, ?_, known⟩
    rw [named, locationName_eq_text, rooted.baseName_text plain]
  refine ⟨fun assigning assigns scope => assigns.emits rooted scope, written, ?_⟩
  intro pieces index piece located instruction member stores
  exact exists_hit located member (written instruction stores)

/-- An expression has names exactly if it is a location, which is what starts from an identifier.
The names go from the root to the text of the location, each a beginning of the next, and are the
texts of the expressions on the way. Where the root is a plain name it can be read off all of them,
and if it is a state variable, then the detector takes every assignment to the location for a write
of it. -/
theorem path_rooted (expression : Expression) :
    (expression.path ≠ [] ↔ expression.isLocation = true) ∧
    (expression.isLocation = true ↔ ∃ root, RootedAt root expression) ∧
    ∀ root, RootedAt root expression →
      expression.path.head? = some root ∧
      expression.path.getLast? = some expression.locationName ∧
      expression.locationName = expression.text ∧
      (expression.path.IsChain fun inner outer => ∃ rest, rest ≠ "" ∧ outer = inner ++ rest) ∧
      (∃ steps, Steps root expression steps ∧ expression.path = steps.map text) ∧
      (PlainName root → (∀ part ∈ expression.path, baseName part = root) ∧
        ∀ state : Names, state.contains root = true → Recognized expression state root) := by
  refine ⟨path_ne_nil_iff expression, ⟨exists_rootedAt, ?_⟩, fun root rooted => ?_⟩
  · rintro ⟨root, rooted⟩
    exact rooted.isLocation
  · obtain ⟨first, last, named, grows, spelled⟩ := rooted.path_spells
    refine ⟨first, last, named, grows, spelled, fun plain => ⟨rooted.baseName_path plain, ?_⟩⟩
    exact fun state known => rooted.recognized plain known

/-- In `balances[msg.sender].owner` the key has a mark in it, and the root is still `balances`. -/
theorem keyed_member_rooted :
    let key := member (identifier "msg" true) "" "sender"
    let target := member (index (identifier "balances" false) key missing missing) "" "owner"
    target.path = ["balances", "balances[msg.sender]", "balances[msg.sender].owner"] ∧
      (∀ part ∈ target.path, baseName part = "balances") ∧
      Recognized target (Names.ofList ["balances"]) "balances" := by
  intro key target
  have rooted : RootedAt "balances" target := ((RootedAt.identifier false).index ..).member ..
  have plain : PlainName "balances" := by decide
  obtain ⟨_, _, _, _, _, based⟩ := (path_rooted target).2.2 "balances" rooted
  exact ⟨rfl, (based plain).1, (based plain).2 _ rfl⟩

end Expression
end Reentrancy
