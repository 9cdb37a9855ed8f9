import Mathlib.Data.Prod.Lex
import Reentrancy.Proofs.Ssa.Placement

/-! Which fault of a list of blocks is reported. A fault is said of the list and its graph, without
the check; the check reports the first one in an order in which repeated ids come before all other
faults, and these follow the order of the blocks. -/
namespace Reentrancy

variable {pieces : List Piece} {index : Nat}

/-- The block at a position breaks one of the conditions, and this is how it is reported. -/
inductive Breaks (pieces : List Piece) (index : Nat) : Invalid → Prop where
  | repeatedId {piece : Piece} (located : pieces[index]? = some piece)
      (again : piece.id ∈ (pieces.take index).map (·.id)) :
      Breaks pieces index (.repeatedId piece.id)
  | pendingExit {piece : Piece} (located : pieces[index]? = some piece)
      (undecided : piece.exit = .pending) : Breaks pieces index (.pendingExit piece.id)
  | danglingTarget {piece : Piece} {known later : List String} {target : String}
      (located : pieces[index]? = some piece)
      (named : piece.exit.targets = known ++ target :: later)
      (before : ∀ other ∈ known, other ∈ pieces.map (·.id))
      (unknown : target ∉ pieces.map (·.id)) : Breaks pieces index (.danglingTarget piece.id target)
  | phiWithoutPredecessors {piece : Piece} (located : pieces[index]? = some piece)
      (phi : ∃ instruction ∈ piece.instructions, instruction.isPhi = true)
      (unentered : ∀ source, index ∉ (pieceGraph pieces).successors source) :
      Breaks pieces index (.phiWithoutPredecessors piece.id)

namespace Invalid

def rank : Invalid → Nat
  | repeatedId _ => 0
  | pendingExit _ => 1
  | danglingTarget .. => 2
  | phiWithoutPredecessors _ => 3

/-- When a fault is reported: repeated ids first, then the other faults by position, and those of
one block by rank. -/
def turn (fault : Invalid) (index : Nat) : Nat ×ₗ Nat ×ₗ Nat :=
  toLex (min fault.rank 1, toLex (index, fault.rank))

theorem turn_le_iff {one two : Invalid} {first second : Nat} :
    one.turn first ≤ two.turn second ↔ min one.rank 1 < min two.rank 1 ∨
      min one.rank 1 = min two.rank 1 ∧
        (first < second ∨ first = second ∧ one.rank ≤ two.rank) := by
  simp only [turn, Prod.Lex.toLex_le_toLex]

end Invalid

theorem Exit.isPending_iff {exit : Exit} : exit.isPending = true ↔ exit = .pending := by
  cases exit <;> simp [isPending]

theorem Exit.isPending_eq_false {exit : Exit} : exit.isPending = false ↔ exit ≠ .pending := by
  rw [← Bool.not_eq_true, isPending_iff]

section Single

theorem find?_dangling_iff {targets : List String} {target : String} :
    (targets.find? fun id => ((pieceGraph pieces).position? id).isNone) = some target ↔
      target ∉ pieces.map (·.id) ∧ ∃ known later, targets = known ++ target :: later ∧
        ∀ other ∈ known, other ∈ pieces.map (·.id) := by
  rw [List.find?_eq_some_iff_append, Graph.position?_isNone]
  simp only [Bool.not_eq_true', ← Bool.not_eq_true, Graph.position?_isNone, Classical.not_not,
    pieceGraph_ids]

theorem located_unique {one two : Piece} (here : pieces[index]? = some one)
    (there : pieces[index]? = some two) : one = two :=
  Option.some.inj (here.symm.trans there)

theorem Breaks.located {fault : Invalid} (breaks : Breaks pieces index fault) :
    ∃ piece, pieces[index]? = some piece := by
  cases breaks with
  | repeatedId located | pendingExit located | danglingTarget located
  | phiWithoutPredecessors located => exact ⟨_, located⟩

theorem Breaks.eq_of_rank {one two : Invalid} (first : Breaks pieces index one)
    (second : Breaks pieces index two) (same : one.rank = two.rank) : one = two := by
  cases first with
  | repeatedId here =>
    cases second with
    | repeatedId there => rw [located_unique here there]
    | _ => cases same
  | pendingExit here =>
    cases second with
    | pendingExit there => rw [located_unique here there]
    | _ => cases same
  | danglingTarget here named before unknown =>
    cases second with
    | danglingTarget there again earlier missing =>
      obtain rfl := located_unique here there
      have one := find?_dangling_iff.mpr ⟨unknown, _, _, named, before⟩
      have two := find?_dangling_iff.mpr ⟨missing, _, _, again, earlier⟩
      rw [Option.some.inj (one.symm.trans two)]
    | _ => cases same
  | phiWithoutPredecessors here =>
    cases second with
    | phiWithoutPredecessors there => rw [located_unique here there]
    | _ => cases same

variable (distinct : (pieces.map (·.id)).Nodup)

include distinct

theorem Breaks.rank_pos {fault : Invalid} (breaks : Breaks pieces index fault) :
    0 < fault.rank := by
  cases breaks with
  | @repeatedId piece located again =>
    obtain ⟨bound, rfl⟩ := List.getElem?_eq_some_iff.mp located
    rw [← List.take_append_drop index pieces, List.map_append, List.nodup_append] at distinct
    have later : pieces[index].id ∈ (pieces.drop index).map (·.id) := by
      rw [List.drop_eq_getElem_cons bound]
      exact List.mem_cons_self
    exact absurd rfl (distinct.2.2 _ again _ later)
  | _ => exact Nat.succ_pos _

theorem unentered_iff {piece : Piece} (located : pieces[index]? = some piece) :
    (pieceGraph pieces).predecessors piece.id = [] ↔
      ∀ source, index ∉ (pieceGraph pieces).successors source := by
  have found : (pieceGraph pieces)[index]? = some piece.vertex := by simp [pieceGraph, located]
  have named : (pieceGraph pieces).idAt index = piece.id := by
    simp [Graph.idAt, found, Piece.vertex]
  have entered := Graph.predecessors_ne_nil (pieceGraph_ids pieces ▸ distinct)
    (List.getElem?_eq_some_iff.mp found).1
  rw [named] at entered
  rw [← not_iff_not, ← ne_eq, entered, Classical.not_forall]
  simp only [Classical.not_not, Graph.Edge]

theorem Piece.fault?_eq_some {piece : Piece} (located : pieces[index]? = some piece)
    {fault : Invalid} (found : piece.fault? (pieceGraph pieces) = some fault) :
    Breaks pieces index fault ∧ ∀ other, Breaks pieces index other → fault.rank ≤ other.rank := by
  unfold fault? at found
  split at found
  next pending =>
    cases found
    exact ⟨.pendingExit located (Exit.isPending_iff.mp pending), fun other breaks =>
      breaks.rank_pos distinct⟩
  next decided =>
    have closed {other : Invalid} (breaks : Breaks pieces index other) : 2 ≤ other.rank := by
      have positive := breaks.rank_pos distinct
      cases breaks with
      | pendingExit there undecided =>
        rw [located_unique there located] at undecided
        exact absurd (Exit.isPending_iff.mpr undecided) decided
      | repeatedId => cases positive
      | _ => simp [Invalid.rank]
    split at found
    next target dangling =>
      cases found
      obtain ⟨unknown, known, later, named, before⟩ := find?_dangling_iff.mp dangling
      exact ⟨.danglingTarget located named before unknown, fun other breaks => closed breaks⟩
    next inside =>
      split at found
      next phi =>
        cases found
        obtain ⟨holds, none⟩ := Bool.and_eq_true_iff.mp phi
        refine ⟨.phiWithoutPredecessors located (List.any_eq_true.mp holds)
          ((unentered_iff distinct located).mp (List.isEmpty_iff.mp none)), fun other breaks => ?_⟩
        have high := closed breaks
        cases breaks with
        | danglingTarget there named before unknown =>
          rw [located_unique there located] at named
          rw [find?_dangling_iff.mpr ⟨unknown, _, _, named, before⟩] at inside
          cases inside
        | phiWithoutPredecessors => exact Nat.le_refl _
        | _ => simp [Invalid.rank] at high
      next => cases found

theorem Piece.not_breaks {piece : Piece} (located : pieces[index]? = some piece)
    (clean : piece.fault? (pieceGraph pieces) = none) (fault : Invalid) :
    ¬Breaks pieces index fault := by
  obtain ⟨decided, inside, entered⟩ := Piece.fault?_eq_none_iff.mp clean
  intro breaks
  have positive := breaks.rank_pos distinct
  cases breaks with
  | repeatedId => cases positive
  | pendingExit there undecided =>
    rw [← located_unique there located, undecided] at decided
    cases decided
  | danglingTarget there named before unknown =>
    rw [← located_unique there located, named, pieceGraph_ids] at inside
    exact unknown (inside _ (List.mem_append_right _ List.mem_cons_self))
  | phiWithoutPredecessors there phi unentered =>
    rw [← located_unique there located] at entered
    exact entered phi ((unentered_iff distinct there).mpr unentered)

end Single

theorem repeatedId?_eq_some {seen ids : List String} {id : String}
    (found : repeatedId? seen ids = some id) :
    ∃ front back, ids = front ++ id :: back ∧ repeatedId? seen front = none ∧
      (id ∈ seen ∨ id ∈ front) := by
  induction ids generalizing seen with
  | nil => cases found
  | cons first rest ih =>
    rw [repeatedId?] at found
    split at found
    next again =>
      obtain rfl : first = id := Option.some.inj found
      exact ⟨[], rest, rfl, rfl, .inl (by simpa using again)⟩
    next fresh =>
      obtain ⟨front, back, rfl, once, before⟩ := ih found
      refine ⟨first :: front, back, rfl, by rwa [repeatedId?, if_neg fresh], ?_⟩
      grind

theorem fault?_first {fault : Invalid} (found : fault? pieces = some fault) :
    ∃ index, Breaks pieces index fault ∧
      ∀ place other, Breaks pieces place other → fault.turn index ≤ other.turn place := by
  unfold fault? at found
  split at found
  next id again =>
    cases found
    obtain ⟨front, back, split, once, member⟩ := repeatedId?_eq_some again
    obtain ⟨earlier, rest, rfl, rfl, named⟩ := List.map_eq_append_iff.mp split
    obtain ⟨piece, later, rfl, rfl, _⟩ := List.map_eq_cons_iff.mp named
    have within : piece.id ∈ earlier.map (·.id) := member.resolve_left List.not_mem_nil
    have located : (earlier ++ piece :: later)[earlier.length]? = some piece := by simp
    refine ⟨earlier.length, .repeatedId located (by simpa using within), fun place other also => ?_⟩
    rw [Invalid.turn_le_iff]
    cases also with
    | repeatedId there twice =>
      rcases Nat.lt_or_ge place earlier.length with before | behind
      -- An earlier repetition would stand among ids that are distinct.
      · rw [List.getElem?_append_left before] at there
        rw [List.take_append_of_le_length (Nat.le_of_lt before)] at twice
        have distinct := (repeatedId?_eq_none_iff.mp once).1
        exact absurd ((Breaks.repeatedId there twice).rank_pos distinct) (Nat.lt_irrefl 0)
      · refine .inr ⟨rfl, ?_⟩
        rcases Nat.eq_or_lt_of_le behind with same | after
        · exact .inr ⟨same, Nat.le_refl 0⟩
        · exact .inl after
    | _ => exact .inl (by simp [Invalid.rank])
  next single =>
    have distinct := (repeatedId?_eq_none_iff.mp single).1
    obtain ⟨earlier, piece, later, rfl, reported, clean⟩ := List.findSome?_eq_some_iff.mp found
    have located : (earlier ++ piece :: later)[earlier.length]? = some piece := by simp
    obtain ⟨breaks, lowest⟩ := Piece.fault?_eq_some distinct located reported
    refine ⟨earlier.length, breaks, fun place other also => ?_⟩
    have positive := breaks.rank_pos distinct
    have above := also.rank_pos distinct
    rw [Invalid.turn_le_iff]
    rcases Nat.lt_trichotomy place earlier.length with before | rfl | behind
    · have inside : (earlier ++ piece :: later)[place]? = some earlier[place] := by
        rw [List.getElem?_append_left before, List.getElem?_eq_getElem before]
      exact absurd also (Piece.not_breaks distinct inside (clean _ (List.getElem_mem before)) other)
    · have rank := lowest other also
      omega
    · omega

theorem fault?_eq_some_iff {fault : Invalid} :
    fault? pieces = some fault ↔ ∃ index, Breaks pieces index fault ∧
      ∀ place other, Breaks pieces place other → fault.turn index ≤ other.turn place := by
  refine ⟨fault?_first, ?_⟩
  rintro ⟨index, breaks, first⟩
  cases reported : fault? pieces with
  | none =>
    obtain ⟨distinct, clean⟩ := fault?_eq_none_iff_forall.mp reported
    obtain ⟨piece, located⟩ := breaks.located
    have checked := clean piece (List.mem_of_getElem? located)
    exact absurd breaks (Piece.not_breaks distinct located checked fault)
  | some other =>
    -- Two faults of which neither comes before the other are the same.
    obtain ⟨place, also, least⟩ := fault?_first reported
    have below := Invalid.turn_le_iff.mp (first place other also)
    have above := Invalid.turn_le_iff.mp (least index fault breaks)
    obtain rfl : index = place := by omega
    rw [also.eq_of_rank breaks (by omega)]

/-- The check passes exactly the lists that meet all conditions. Of any other list it reports a
fault that the list has, and the first one in their order. -/
theorem fault?_exact (pieces : List Piece) :
    (fault? pieces = none ↔
      (pieces.map (·.id)).Nodup ∧ (∀ piece ∈ pieces, piece.exit ≠ .pending) ∧
      (∀ piece ∈ pieces, ∀ target ∈ piece.exit.targets, target ∈ pieces.map (·.id)) ∧
      ∀ index piece, pieces[index]? = some piece →
        (∃ instruction ∈ piece.instructions, instruction.isPhi = true) →
          ∃ source, index ∈ (pieceGraph pieces).successors source) ∧
    ∀ fault, fault? pieces = some fault ↔ ∃ index, Breaks pieces index fault ∧
      ∀ place other, Breaks pieces place other → fault.turn index ≤ other.turn place := by
  refine ⟨?_, fun fault => fault?_eq_some_iff⟩
  simp only [fault?_eq_none_iff_forall, Piece.fault?_eq_none_iff, pieceGraph_ids]
  constructor
  · rintro ⟨distinct, sound⟩
    refine ⟨distinct, fun piece member => Exit.isPending_eq_false.mp (sound piece member).1,
      fun piece member => (sound piece member).2.1, fun index piece located phi => ?_⟩
    have entered := (sound piece (List.mem_of_getElem? located)).2.2 phi
    rw [Ne, unentered_iff distinct located, Classical.not_forall] at entered
    simpa only [Classical.not_not] using entered
  · rintro ⟨distinct, decided, inside, entered⟩
    refine ⟨distinct, fun piece member => ⟨Exit.isPending_eq_false.mpr (decided piece member),
      inside piece member, fun phi none => ?_⟩⟩
    obtain ⟨index, located⟩ := List.getElem?_of_mem member
    obtain ⟨source, edge⟩ := entered index piece located phi
    exact (unentered_iff distinct located).mp none source edge

end Reentrancy
