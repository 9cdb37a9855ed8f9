import Reentrancy.Proofs.Detector.Hits

/-! Detection by the order of blocks. Cutting blocks into pieces keeps the order of
instructions, so the detector sees a call before a write exactly if the code has them in that
order, and it names the first call and the first write after it. -/
namespace Reentrancy

section Redirect

variable (ends : Table String) (instruction : Instruction)

@[simp] theorem externalCallee?_redirect :
    (instruction.redirect ends).externalCallee? = instruction.externalCallee? := by
  cases instruction <;> rfl

@[simp] theorem stateWrite?_redirect (state : Names) :
    (instruction.redirect ends).stateWrite? state = instruction.stateWrite? state := by
  cases instruction <;> rfl

variable {ends}

theorem pair_sublist_redirect {code : List Instruction} {call write : Instruction}
    (called : call.isEffectful = true) (written : write.isEffectful = true) :
    [call, write].Sublist (code.map (Instruction.redirect ends)) ↔ [call, write].Sublist code := by
  simp only [pair_sublist_iff, List.getElem?_map, Option.map_eq_some_iff,
    Instruction.redirect_eq_iff called, Instruction.redirect_eq_iff written, exists_eq_right]

end Redirect

theorem exposure?_ordered_isSome (state : Names) (number : Nat) (blocks : List Block) :
    (exposure? .ordered state (splitBlocks number blocks).1).isSome = true ↔
      ∃ call write callee name, [call, write].Sublist (instructionsOf blocks) ∧
        call.Leaves callee ∧ write.Writes state name := by
  have quiet : ∀ run ∈ (splitBlocks number blocks).1.map (·.instructions),
      ∀ instruction ∈ run.dropLast, instruction.isEffectful = false := by
    intro run member
    obtain ⟨piece, found, rfl⟩ := List.mem_map.mp member
    exact splitBlocks_quiet number blocks found
  obtain ⟨ends, code⟩ := splitBlocks_instructions number blocks
  have pair {call write : Instruction} {callee name : String} (leaves : call.Leaves callee)
      (writes : write.Writes state name) := calc
    [call, write].Sublist (instructionsOf blocks)
      ↔ [call, write].Sublist ((splitBlocks number blocks).1.map (·.instructions)).flatten := by
        rw [← List.flatMap_def, code, pair_sublist_redirect leaves.isEffectful writes.isEffectful]
    _ ↔ _ := pair_sublist_flatten leaves.isEffectful quiet
  rw [exposure?_isSome]
  constructor
  · rintro ⟨i, j, one, two, call, write, callee, name, before, here, there, inOne, inTwo, leaves,
      writes⟩
    refine ⟨call, write, callee, name, (pair leaves writes).mpr ?_, leaves, writes⟩
    exact ⟨i, j, one.instructions, two.instructions, before, by simp [here], by simp [there],
      inOne, inTwo⟩
  · rintro ⟨call, write, callee, name, later, leaves, writes⟩
    obtain ⟨i, j, _, _, before, here, there, inOne, inTwo⟩ := (pair leaves writes).mp later
    rw [List.getElem?_map, Option.map_eq_some_iff] at here there
    obtain ⟨one, here, rfl⟩ := here
    obtain ⟨two, there, rfl⟩ := there
    exact ⟨i, j, one, two, call, write, callee, name, before, here, there, inOne, inTwo, leaves,
      writes⟩

section First

variable {find : Instruction → Option String} {start : Nat} {pieces : List Piece} {hit : Hit}

theorem hitsFrom_append (find : Instruction → Option String) (start : Nat)
    (front back : List Piece) :
    hitsFrom find start (front ++ back) =
      hitsFrom find start front ++ hitsFrom find (start + front.length) back := by
  induction front generalizing start with
  | nil => rfl
  | cons piece rest ih =>
    have shift : start + 1 + rest.length = start + (rest.length + 1) := by omega
    simp only [List.cons_append, hitsFrom, ih, List.length_cons, shift]
    split <;> rfl

theorem le_position (member : hit ∈ hitsFrom find start pieces) : start ≤ hit.position := by
  obtain ⟨index, _, _, _, _, rfl⟩ := mem_hitsFrom.mp member
  exact Nat.le_add_right start index

theorem position_lt (member : hit ∈ hitsFrom find start pieces) :
    hit.position < start + pieces.length := by
  obtain ⟨index, _, _, located, _, rfl⟩ := mem_hitsFrom.mp member
  exact Nat.add_lt_add_left (List.getElem?_eq_some_iff.mp located).1 start

theorem hitsFrom_sorted (find : Instruction → Option String) (start : Nat) (pieces : List Piece) :
    (hitsFrom find start pieces).Pairwise fun one two => one.position < two.position := by
  induction pieces generalizing start with
  | nil => exact .nil
  | cons piece rest ih =>
    rw [hitsFrom]
    split
    · exact .cons (fun hit later => le_position later) (ih (start + 1))
    · exact ih (start + 1)

theorem exists_first_hit (first : (hitsFrom find start pieces).head? = some hit) :
    ∃ front piece back, pieces = front ++ piece :: back ∧
      (∀ earlier ∈ front, earlier.instructions.findSome? find = none) ∧
        piece.instructions.findSome? find = some hit.name ∧ piece.id = hit.id ∧
          hit.position = start + front.length := by
  induction pieces generalizing start with
  | nil => cases first
  | cons piece rest ih =>
    rw [hitsFrom] at first
    split at first
    next name found =>
      obtain rfl := Option.some.inj first
      exact ⟨[], piece, rest, rfl, by simp, found, rfl, rfl⟩
    next absent =>
      obtain ⟨front, other, back, rfl, quiet, found, named, position⟩ := ih first
      refine ⟨piece :: front, other, back, rfl, ?_, found, named, ?_⟩
      · exact List.forall_mem_cons.mpr ⟨absent, quiet⟩
      · rw [position, List.length_cons]
        omega

end First

section Earliest

variable {state : Names} {pieces : List Piece} {call write : Hit}

/-- By order, the first call is the one reported, as every write after a later call is after
it as well. -/
theorem exposure?_ordered_eq_some (found : exposure? .ordered state pieces = some (call, write)) :
    (externalCalls pieces).head? = some call ∧
      (stateWrites state pieces).find? (fun later => call.position < later.position) =
        some write := by
  obtain ⟨front, first, back, calls, written, none⟩ := List.findSome?_eq_some_iff.mp found
  obtain ⟨_, after, pair⟩ := Option.map_eq_some_iff.mp written
  obtain ⟨rfl, rfl⟩ := Prod.mk.inj pair
  rw [writeAfter?] at after
  refine ⟨?_, after⟩
  cases front with
  | nil => rw [calls, List.nil_append, List.head?_cons]
  | cons other rest =>
    have sorted := hitsFrom_sorted Instruction.externalCallee? 0 pieces
    rw [← externalCalls, calls] at sorted
    have before : other.position < first.position :=
      List.rel_of_pairwise_cons sorted (List.mem_append_right _ List.mem_cons_self)
    have follows := List.find?_some after
    simp only [decide_eq_true_eq] at follows
    have silent := none other List.mem_cons_self
    have quiet := List.find?_eq_none.mp (Option.map_eq_none_iff.mp silent) _
      (List.mem_of_find?_eq_some after)
    exact absurd (decide_eq_true (Nat.lt_trans before follows)) quiet

theorem exposure?_ordered_split (found : exposure? .ordered state pieces = some (call, write)) :
    ∃ front one middle two back, pieces = front ++ one :: (middle ++ two :: back) ∧
      (∀ piece ∈ front, piece.instructions.findSome? Instruction.externalCallee? = none) ∧
        one.instructions.findSome? Instruction.externalCallee? = some call.name ∧
          one.id = call.id ∧
            (∀ piece ∈ middle,
              piece.instructions.findSome? (Instruction.stateWrite? state) = none) ∧
              two.instructions.findSome? (Instruction.stateWrite? state) = some write.name ∧
                two.id = write.id := by
  obtain ⟨first, after⟩ := exposure?_ordered_eq_some found
  obtain ⟨front, one, rest, rfl, quiet, called, oneId, position⟩ := exists_first_hit first
  rw [Nat.zero_add] at position
  have split : stateWrites state (front ++ one :: rest) =
      hitsFrom (Instruction.stateWrite? state) 0 (front ++ [one]) ++
        hitsFrom (Instruction.stateWrite? state) (front.length + 1) rest := by
    rw [stateWrites, List.append_cons, hitsFrom_append]
    simp
  have early : (hitsFrom (Instruction.stateWrite? state) 0 (front ++ [one])).find?
      (fun later => call.position < later.position) = none := by
    rw [List.find?_eq_none]
    intro hit member
    have bound := position_lt member
    simp only [List.length_append, List.length_singleton] at bound
    simp only [decide_eq_true_eq]
    omega
  have late : (hitsFrom (Instruction.stateWrite? state) (front.length + 1) rest).head? =
      some write := by
    rw [split, List.find?_append, early, Option.none_or] at after
    cases writes : hitsFrom (Instruction.stateWrite? state) (front.length + 1) rest with
    | nil => rw [writes] at after; cases after
    | cons next others =>
      have bound : front.length + 1 ≤ next.position :=
        le_position (writes ▸ List.mem_cons_self)
      rwa [writes, List.find?_cons_of_pos (by simp only [decide_eq_true_eq]; omega)] at after
  obtain ⟨middle, two, back, rfl, silent, written, twoId, _⟩ := exists_first_hit late
  exact ⟨front, one, middle, two, back, rfl, quiet, called, oneId, silent, written, twoId⟩

end Earliest

section Code

theorem find_eq_none_of_pieces {find : Instruction → Option String} {pieces : List Piece}
    (quiet : ∀ piece ∈ pieces, piece.instructions.findSome? find = none) :
    ∀ instruction ∈ pieces.flatMap (·.instructions), find instruction = none := by
  intro instruction member
  obtain ⟨piece, found, inside⟩ := List.mem_flatMap.mp member
  exact List.findSome?_eq_none_iff.mp (quiet piece found) instruction inside

theorem redirect_split {ends : Table String} {code front middle back : List Instruction}
    {call write : Instruction} (called : call.isEffectful = true)
    (written : write.isEffectful = true)
    (same : code.map (Instruction.redirect ends) = front ++ call :: (middle ++ write :: back)) :
    ∃ early between late, code = early ++ call :: (between ++ write :: late) ∧
      front = early.map (Instruction.redirect ends) ∧
        middle = between.map (Instruction.redirect ends) := by
  obtain ⟨early, _, rfl, rfl, fromCall⟩ := List.map_eq_append_iff.mp same
  obtain ⟨first, _, rfl, isCall, afterCall⟩ := List.map_eq_cons_iff.mp fromCall
  obtain ⟨between, _, rfl, rfl, fromWrite⟩ := List.map_eq_append_iff.mp afterCall
  obtain ⟨second, late, rfl, isWrite, _⟩ := List.map_eq_cons_iff.mp fromWrite
  rw [Instruction.redirect_eq_iff called] at isCall
  rw [Instruction.redirect_eq_iff written] at isWrite
  exact ⟨early, between, late, by rw [isCall, isWrite], rfl, rfl⟩

variable {state : Names} {number : Nat} {blocks : List Block} {call write : Hit}

theorem exposure?_ordered_code
    (found : exposure? .ordered state (splitBlocks number blocks).1 = some (call, write)) :
    ∃ front first middle second back,
      instructionsOf blocks = front ++ first :: (middle ++ second :: back) ∧
        first.Leaves call.name ∧ second.Writes state write.name ∧
        (∀ earlier ∈ front, earlier.externalCallee? = none) ∧
        (∀ between ∈ middle, between.stateWrite? state = none) ∧
        (∃ one ∈ (splitBlocks number blocks).1, first ∈ one.instructions ∧ one.id = call.id) ∧
        ∃ two ∈ (splitBlocks number blocks).1, second ∈ two.instructions ∧ two.id = write.id := by
  obtain ⟨front, one, middle, two, back, pieces, quiet, called, oneId, silent, written, twoId⟩ :=
    exposure?_ordered_split found
  obtain ⟨oneFront, first, oneBack, oneRun, isCall, beforeCall⟩ :=
    List.findSome?_eq_some_iff.mp called
  obtain ⟨twoFront, second, twoBack, twoRun, isWrite, beforeWrite⟩ :=
    List.findSome?_eq_some_iff.mp written
  have leaves := Instruction.externalCallee?_eq_some.mp isCall
  have writes := Instruction.stateWrite?_eq_some.mp isWrite
  have oneMember : one ∈ (splitBlocks number blocks).1 := by simp [pieces]
  have twoMember : two ∈ (splitBlocks number blocks).1 := by simp [pieces]
  -- The call ends its piece, so what stands between call and write is in later pieces.
  have ended : oneBack = [] := by
    cases oneBack with
    | nil => rfl
    | cons next others =>
      have pair : [first, next].Sublist one.instructions := by
        rw [oneRun]
        exact (((List.nil_sublist others).cons_cons next).cons_cons first).trans
          (List.sublist_append_right oneFront _)
      have silence := splitBlocks_quiet number blocks oneMember first (mem_dropLast_of_pair pair)
      rw [leaves.isEffectful] at silence
      cases silence
  subst ended
  obtain ⟨ends, code⟩ := splitBlocks_instructions number blocks
  have laid : (instructionsOf blocks).map (Instruction.redirect ends) =
      (front.flatMap (·.instructions) ++ oneFront) ++ first ::
        ((middle.flatMap (·.instructions) ++ twoFront) ++ second ::
          (twoBack ++ back.flatMap (·.instructions))) := by
    rw [← code, pieces]
    simp [oneRun, twoRun]
  obtain ⟨early, between, late, split, frontEq, middleEq⟩ :=
    redirect_split leaves.isEffectful writes.isEffectful laid
  refine ⟨early, first, between, second, late, split, leaves, writes, ?_, ?_,
    ⟨one, oneMember, by simp [oneRun], oneId⟩, ⟨two, twoMember, by simp [twoRun], twoId⟩⟩
  · intro earlier member
    rw [← externalCallee?_redirect ends earlier]
    have moved : earlier.redirect ends ∈ front.flatMap (·.instructions) ++ oneFront :=
      frontEq ▸ List.mem_map_of_mem member
    exact (List.mem_append.mp moved).elim (find_eq_none_of_pieces quiet _) (beforeCall _)
  · intro item member
    rw [← stateWrite?_redirect ends item]
    have moved : item.redirect ends ∈ middle.flatMap (·.instructions) ++ twoFront :=
      middleEq ▸ List.mem_map_of_mem member
    exact (List.mem_append.mp moved).elim (find_eq_none_of_pieces silent _) (beforeWrite _)

end Code

/-- Detection by order is exact at the level of instructions: there is a finding exactly if the
code has an external call and later a write to a state variable, and it names the first
external call and the first such write after it, each with the piece that holds it. -/
theorem Detector.check_ordered_iff (state : Names) (contract function : String)
    (modifiers : List String) (number : Nat) (blocks : List Block) :
    ((Detector.check { mode := .ordered } state contract function modifiers
        (splitBlocks number blocks).1).isSome = true ↔
      ∃ (i j : Nat) (call write : Instruction) (callee name : String), i < j ∧
        (instructionsOf blocks)[i]? = some call ∧ (instructionsOf blocks)[j]? = some write ∧
          call.Leaves callee ∧ write.Writes state name) ∧
      ∀ finding, Detector.check { mode := .ordered } state contract function modifiers
          (splitBlocks number blocks).1 = some finding →
        ∃ (front middle back : List Instruction) (call write : Instruction) (callee name : String)
            (one two : Piece),
          instructionsOf blocks = front ++ call :: (middle ++ write :: back) ∧
            call.Leaves callee ∧ write.Writes state name ∧
            (∀ earlier ∈ front, ∀ other, ¬ earlier.Leaves other) ∧
            (∀ between ∈ middle, ∀ other, ¬ between.Writes state other) ∧
            one ∈ (splitBlocks number blocks).1 ∧ call ∈ one.instructions ∧
            two ∈ (splitBlocks number blocks).1 ∧ write ∈ two.instructions ∧
            finding = { contract, function, description :=
              "External call `" ++ callee ++ "` in " ++ one.id ++
                " is followed by a write to state variable `" ++ name ++ "` in " ++ two.id } := by
  have check : Detector.check { mode := .ordered } state contract function modifiers
      (splitBlocks number blocks).1 =
        (exposure? .ordered state (splitBlocks number blocks).1).map fun exposure =>
          { contract, function, description := describe exposure.1 exposure.2 } := rfl
  rw [check, Option.isSome_map, exposure?_ordered_isSome]
  refine ⟨?_, ?_⟩
  · simp only [pair_sublist_iff]
    constructor
    · rintro ⟨call, write, callee, name, ⟨i, j, before, here, there⟩, leaves, writes⟩
      exact ⟨i, j, call, write, callee, name, before, here, there, leaves, writes⟩
    · rintro ⟨i, j, call, write, callee, name, before, here, there, leaves, writes⟩
      exact ⟨call, write, callee, name, ⟨i, j, before, here, there⟩, leaves, writes⟩
  · intro finding reported
    obtain ⟨⟨call, write⟩, found, rfl⟩ := Option.map_eq_some_iff.mp reported
    obtain ⟨front, first, middle, second, back, code, leaves, writes, early, between,
      ⟨one, oneMember, inOne, oneId⟩, two, twoMember, inTwo, twoId⟩ := exposure?_ordered_code found
    refine ⟨front, middle, back, first, second, call.name, write.name, one, two, code, leaves,
      writes, ?_, ?_, oneMember, inOne, twoMember, inTwo, ?_⟩
    · intro earlier member other leavesToo
      cases (early earlier member).symm.trans (Instruction.externalCallee?_eq_some.mpr leavesToo)
    · intro item member other writesToo
      cases (between item member).symm.trans (Instruction.stateWrite?_eq_some.mpr writesToo)
    · rw [oneId, twoId]
      rfl

end Reentrancy
