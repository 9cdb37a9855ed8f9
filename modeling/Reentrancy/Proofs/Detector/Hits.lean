import Reentrancy.Detector
import Reentrancy.Proofs.Flow.Reachability
import Reentrancy.Proofs.Ssa.Pieces

/-! What the detector looks for, and where it finds it. A piece holds at most one effect, as its
last instruction, so of two effects the earlier one stands in an earlier piece. -/
namespace Reentrancy

section Pairs

variable {α : Type} {first second : α}

theorem pair_sublist_iff {items : List α} :
    [first, second].Sublist items ↔
      ∃ i j : Nat, i < j ∧ items[i]? = some first ∧ items[j]? = some second := by
  induction items with
  | nil => simp
  | cons item rest ih =>
    constructor
    · intro pair
      cases pair with
      | cons _ later =>
        obtain ⟨i, j, before, here, there⟩ := ih.mp later
        exact ⟨i + 1, j + 1, by omega, here, there⟩
      | cons_cons _ later =>
        obtain ⟨j, there⟩ := List.getElem?_of_mem (List.singleton_sublist.mp later)
        exact ⟨0, j + 1, by omega, rfl, there⟩
    · rintro ⟨i, j, before, here, there⟩
      obtain ⟨j, rfl⟩ : ∃ k, j = k + 1 := ⟨j - 1, by omega⟩
      have later : rest[j]? = some second := there
      cases i with
      | zero =>
        obtain rfl := Option.some.inj here
        exact .cons_cons _ (List.singleton_sublist.mpr (List.mem_of_getElem? later))
      | succ i => exact .cons _ (ih.mpr ⟨i, j, by omega, here, later⟩)

theorem mem_dropLast_of_pair {items : List α} (pair : [first, second].Sublist items) :
    first ∈ items.dropLast := by
  obtain ⟨i, j, before, here, there⟩ := pair_sublist_iff.mp pair
  have bound := (List.getElem?_eq_some_iff.mp there).1
  refine List.mem_of_getElem? (i := i) ?_
  rw [List.getElem?_dropLast, if_pos (by omega), here]

/-- An element that can only be the last of its run stands in an earlier run than what comes
after it. -/
theorem pair_sublist_flatten {ends : α → Bool} (chosen : ends first = true)
    {runs : List (List α)} (quiet : ∀ run ∈ runs, ∀ item ∈ run.dropLast, ends item = false) :
    [first, second].Sublist runs.flatten ↔
      ∃ (i j : Nat) (one two : List α), i < j ∧ runs[i]? = some one ∧ runs[j]? = some two ∧
        first ∈ one ∧ second ∈ two := by
  induction runs with
  | nil => simp
  | cons run rest ih =>
    rw [List.forall_mem_cons] at quiet
    rw [List.flatten_cons]
    constructor
    · intro pair
      obtain ⟨left, right, split, early, late⟩ := List.sublist_append_iff.mp pair
      match left, right, split with
      | [], _, rfl =>
        obtain ⟨i, j, one, two, before, here, there, inOne, inTwo⟩ := (ih quiet.2).mp late
        exact ⟨i + 1, j + 1, one, two, by omega, here, there, inOne, inTwo⟩
      | [_], _, rfl =>
        obtain ⟨two, member, inTwo⟩ := List.mem_flatten.mp (List.singleton_sublist.mp late)
        obtain ⟨j, there⟩ := List.getElem?_of_mem member
        exact ⟨0, j + 1, run, two, by omega, rfl, there, List.singleton_sublist.mp early, inTwo⟩
      | [_, _], _, rfl =>
        rw [quiet.1 _ (mem_dropLast_of_pair early)] at chosen
        cases chosen
    · rintro ⟨i, j, one, two, before, here, there, inOne, inTwo⟩
      obtain ⟨j, rfl⟩ : ∃ k, j = k + 1 := ⟨j - 1, by omega⟩
      have later : rest[j]? = some two := there
      cases i with
      | zero =>
        obtain rfl := Option.some.inj here
        have after : second ∈ rest.flatten :=
          List.mem_flatten.mpr ⟨two, List.mem_of_getElem? later, inTwo⟩
        exact (List.singleton_sublist.mpr inOne).append (List.singleton_sublist.mpr after)
      | succ i =>
        have inside := (ih quiet.2).mpr ⟨i, j, one, two, by omega, here, later, inOne, inTwo⟩
        exact inside.trans (List.sublist_append_right run rest.flatten)

end Pairs

namespace Instruction

def Leaves (instruction : Instruction) (callee : String) : Prop :=
  ∃ operation, instruction = call operation ∧ operation.type.isExternal = true ∧
    operation.callee = callee

def Writes (state : Names) (instruction : Instruction) (name : String) : Prop :=
  ∃ assignment, instruction = assign assignment ∧ baseName assignment.target.name = name ∧
    state.contains name = true

theorem externalCallee?_eq_some {instruction : Instruction} {callee : String} :
    instruction.externalCallee? = some callee ↔ instruction.Leaves callee := by
  cases instruction with
  | call operation =>
    simp only [externalCallee?, Leaves, call.injEq, exists_eq_left']
    split <;> simp_all
  | _ => simp [externalCallee?, Leaves]

theorem stateWrite?_eq_some {state : Names} {instruction : Instruction} {name : String} :
    instruction.stateWrite? state = some name ↔ instruction.Writes state name := by
  cases instruction with
  | assign assignment =>
    simp only [stateWrite?, Writes, assign.injEq, exists_eq_left']
    split
    next known => simp only [Option.some.injEq]; grind
    next => grind
  | _ => simp [stateWrite?, Writes]

theorem Leaves.isEffectful {instruction : Instruction} {callee : String}
    (leaves : instruction.Leaves callee) : instruction.isEffectful = true := by
  obtain ⟨operation, rfl, _⟩ := leaves
  rfl

theorem Writes.isEffectful {state : Names} {instruction : Instruction} {name : String}
    (writes : instruction.Writes state name) : instruction.isEffectful = true := by
  obtain ⟨assignment, rfl, _⟩ := writes
  rfl

theorem redirect_eq_iff {ends : Table String} {instruction other : Instruction}
    (effect : other.isEffectful = true) :
    instruction.redirect ends = other ↔ instruction = other := by
  cases instruction with
  | phi target sources =>
    cases other with
    | phi => cases effect
    | _ => simp [redirect]
  | _ => rfl

end Instruction

section Hits

variable {find : Instruction → Option String}

theorem mem_hitsFrom {start : Nat} {pieces : List Piece} {hit : Hit} :
    hit ∈ hitsFrom find start pieces ↔
      ∃ (index : Nat) (piece : Piece) (name : String), pieces[index]? = some piece ∧
        piece.instructions.findSome? find = some name ∧ hit = ⟨start + index, piece.id, name⟩ := by
  induction pieces generalizing start with
  | nil => simp [hitsFrom]
  | cons piece rest ih =>
    have later : hit ∈ hitsFrom find (start + 1) rest ↔
        ∃ (index : Nat) (other : Piece) (name : String), (piece :: rest)[index + 1]? = some other ∧
          other.instructions.findSome? find = some name ∧
            hit = ⟨start + (index + 1), other.id, name⟩ := by
      simp only [ih, List.getElem?_cons_succ, Nat.add_comm, Nat.add_left_comm]
    rw [hitsFrom]
    constructor
    · intro member
      split at member
      next name found =>
        rcases List.mem_cons.mp member with rfl | after
        · exact ⟨0, piece, name, rfl, found, rfl⟩
        · obtain ⟨index, rest⟩ := later.mp after
          exact ⟨index + 1, rest⟩
      next =>
        obtain ⟨index, rest⟩ := later.mp member
        exact ⟨index + 1, rest⟩
    · rintro ⟨index, other, name, located, found, rfl⟩
      cases index with
      | zero =>
        obtain rfl := Option.some.inj located
        rw [found]
        exact List.mem_cons_self
      | succ index =>
        have after := later.mpr ⟨index, other, name, located, found, rfl⟩
        split
        · exact List.mem_cons_of_mem _ after
        · exact after

theorem exists_hit {pieces : List Piece} {index : Nat} {piece : Piece} {instruction : Instruction}
    {name : String} (located : pieces[index]? = some piece)
    (member : instruction ∈ piece.instructions) (found : find instruction = some name) :
    ∃ hit ∈ hitsFrom find 0 pieces, hit.position = index ∧ hit.id = piece.id := by
  have some : (piece.instructions.findSome? find).isSome = true :=
    List.findSome?_isSome_iff.mpr ⟨instruction, member, by rw [found]; rfl⟩
  obtain ⟨first, leads⟩ := Option.isSome_iff_exists.mp some
  exact ⟨_, mem_hitsFrom.mpr ⟨index, piece, first, located, leads, rfl⟩, Nat.zero_add index, rfl⟩

end Hits

def DetectionMode.Follows (mode : DetectionMode) (graph : Graph) (call write : Nat) : Prop :=
  match mode with
  | .ordered => call < write
  | .reachability => graph.Path call write

theorem writeAfter?_isSome (mode : DetectionMode) (graph : Graph) (writes : List Hit) (call : Hit) :
    (writeAfter? mode graph writes call).isSome = true ↔
      ∃ write ∈ writes, mode.Follows graph call.position write.position := by
  cases mode with
  | ordered => simp [writeAfter?, DetectionMode.Follows]
  | reachability =>
    simp [writeAfter?, DetectionMode.Follows, Graph.mem_reachable]

/-- The detector reports exactly if some piece with a write follows some piece with a call. -/
theorem exposure?_isSome (mode : DetectionMode) (state : Names) (pieces : List Piece) :
    (exposure? mode state pieces).isSome = true ↔
      ∃ (i j : Nat) (one two : Piece) (call write : Instruction) (callee name : String),
        mode.Follows (pieceGraph pieces) i j ∧ pieces[i]? = some one ∧ pieces[j]? = some two ∧
          call ∈ one.instructions ∧ write ∈ two.instructions ∧ call.Leaves callee ∧
            write.Writes state name := by
  simp only [exposure?, List.findSome?_isSome_iff, Option.isSome_map, writeAfter?_isSome]
  constructor
  · rintro ⟨_, calls, _, changes, follows⟩
    obtain ⟨i, one, callee, here, called, rfl⟩ := mem_hitsFrom.mp calls
    obtain ⟨j, two, name, there, written, rfl⟩ := mem_hitsFrom.mp changes
    obtain ⟨call, inOne, leaves⟩ := List.exists_of_findSome?_eq_some called
    obtain ⟨write, inTwo, writes⟩ := List.exists_of_findSome?_eq_some written
    rw [Nat.zero_add, Nat.zero_add] at follows
    exact ⟨i, j, one, two, call, write, callee, name, follows, here, there, inOne, inTwo,
      Instruction.externalCallee?_eq_some.mp leaves, Instruction.stateWrite?_eq_some.mp writes⟩
  · rintro ⟨i, j, one, two, call, write, callee, name, follows, here, there, inOne, inTwo, leaves,
      writes⟩
    obtain ⟨first, calls, rfl, _⟩ :=
      exists_hit here inOne (Instruction.externalCallee?_eq_some.mpr leaves)
    obtain ⟨last, changes, rfl, _⟩ :=
      exists_hit there inTwo (Instruction.stateWrite?_eq_some.mpr writes)
    exact ⟨first, calls, last, changes, follows⟩

theorem Detector.check_isSome {detector : Detector} {state : Names} {contract function : String}
    {modifiers : List String} {pieces : List Piece} :
    (detector.check state contract function modifiers pieces).isSome = true ↔
      (detector.honorGuards && modifiers.any isGuard) = false ∧
        (exposure? detector.mode state pieces).isSome = true := by
  unfold check
  split
  next guarded => simp [guarded]
  next free => simp [free]

end Reentrancy
