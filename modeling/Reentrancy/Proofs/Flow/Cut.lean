import Reentrancy.Flow.Cut

/-! Cutting a list keeps its elements and their order, what stands before the first chosen
element is in the first run, and a chosen element is the last of its run. No other list of runs
keeps to the rule of the cut. -/
namespace Reentrancy

variable {α : Type} (ends : α → Bool)

theorem cutAfter_flatten (items : List α) : (cutAfter ends items).flatten = items := by
  induction items with
  | nil => rfl
  | cons first rest ih =>
    rw [cutAfter]
    split
    · simp [ih]
    · split
      next empty => simpa [empty] using ih
      next run others found => simpa [found] using ih

theorem mem_of_mem_cutAfter {items run : List α} {item : α} (found : run ∈ cutAfter ends items)
    (member : item ∈ run) : item ∈ items := by
  have flat := cutAfter_flatten ends items
  exact flat ▸ List.mem_flatten.mpr ⟨run, found, member⟩

theorem mem_of_mem_tail_cutAfter {front items run : List α} {item : α}
    (quiet : ∀ item ∈ front, ends item = false) (later : run ∈ (cutAfter ends (front ++ items)).tail)
    (member : item ∈ run) : item ∈ items := by
  induction front with
  | nil => exact mem_of_mem_cutAfter ends (List.mem_of_mem_tail later) member
  | cons first rest ih =>
    have idle : ends first = false := quiet first List.mem_cons_self
    rw [List.cons_append, cutAfter, if_neg (by simp [idle])] at later
    refine ih (fun other inside => quiet other (List.mem_cons_of_mem _ inside)) ?_
    split at later
    · cases later
    next head others found => simpa [found] using later

theorem cutAfter_quiet {items run : List α} (found : run ∈ cutAfter ends items) :
    ∀ item ∈ run.dropLast, ends item = false := by
  induction items generalizing run with
  | nil => cases found
  | cons first rest ih =>
    rw [cutAfter] at found
    split at found
    next =>
      rcases List.mem_cons.mp found with rfl | later
      · simp
      · exact ih later
    next idle =>
      have quiet : ends first = false := by simpa using idle
      split at found
      next =>
        obtain rfl := List.mem_singleton.mp found
        simp
      next head others cut =>
        have known {other : List α} (member : other ∈ head :: others) :
            ∀ item ∈ other.dropLast, ends item = false := ih (cut ▸ member)
        rcases List.mem_cons.mp found with rfl | later
        · intro item member
          cases head with
          | nil => simp at member
          | cons second tail =>
            rcases List.mem_cons.mp member with rfl | inside
            · exact quiet
            · exact known List.mem_cons_self item inside
        · exact known (List.mem_cons_of_mem _ later)

theorem cutAfter_split (front rest : List α) {last : α} (chosen : ends last = true) :
    ∃ runs run, cutAfter ends (front ++ last :: rest) =
      runs ++ (run ++ [last]) :: cutAfter ends rest ∧ runs.flatten ++ run = front := by
  induction front with
  | nil => exact ⟨[], [], by simp [cutAfter, chosen], rfl⟩
  | cons first others ih =>
    obtain ⟨runs, run, cut, whole⟩ := ih
    rw [List.cons_append, cutAfter, cut]
    split
    · exact ⟨[first] :: runs, run, rfl, by simp [← whole]⟩
    · cases runs with
      | nil => exact ⟨[], first :: run, rfl, by simp [← whole]⟩
      | cons head tail => exact ⟨(first :: head) :: tail, run, rfl, by simp [← whole]⟩

/-- The rule of a cut: runs that are not empty make up the list, chosen elements stand only at the
end of a run, and every run but the last has one there. -/
structure CutsAfter (items : List α) (runs : List (List α)) : Prop where
  whole : runs.flatten = items
  filled : ∀ run ∈ runs, run ≠ []
  quiet : ∀ run ∈ runs, ∀ item ∈ run.dropLast, ends item = false
  ended : ∀ run ∈ runs.dropLast, ∃ last, run.getLast? = some last ∧ ends last = true

theorem cutAfter_filled {items run : List α} (found : run ∈ cutAfter ends items) : run ≠ [] := by
  induction items generalizing run with
  | nil => cases found
  | cons first rest ih =>
    rw [cutAfter] at found
    split at found
    next =>
      rcases List.mem_cons.mp found with rfl | later
      · simp
      · exact ih later
    next =>
      split at found
      next =>
        obtain rfl := List.mem_singleton.mp found
        simp
      next head others cut =>
        rcases List.mem_cons.mp found with rfl | later
        · simp
        · exact ih (cut ▸ List.mem_cons_of_mem _ later)

theorem cutAfter_ended {items run : List α} (found : run ∈ (cutAfter ends items).dropLast) :
    ∃ last, run.getLast? = some last ∧ ends last = true := by
  induction items generalizing run with
  | nil => cases found
  | cons first rest ih =>
    rw [cutAfter] at found
    split at found
    next chosen =>
      cases cut : cutAfter ends rest with
      | nil => simp [cut] at found
      | cons head others =>
        rw [cut, List.dropLast_cons_cons] at found
        rcases List.mem_cons.mp found with rfl | later
        · exact ⟨first, rfl, chosen⟩
        · exact ih (cut ▸ later)
    next =>
      split at found
      next => simp at found
      next head others cut =>
        cases others with
        | nil => simp at found
        | cons next more =>
          rw [List.dropLast_cons_cons] at found
          rw [cut, List.dropLast_cons_cons] at ih
          rcases List.mem_cons.mp found with rfl | later
          -- An element in front does not change how the run ends.
          · obtain ⟨last, ending, chosen⟩ := ih List.mem_cons_self
            exact ⟨last, by simp [List.getLast?_cons, ending], chosen⟩
          · exact ih (List.mem_cons_of_mem _ later)

theorem cutAfter_cuts (items : List α) : CutsAfter ends items (cutAfter ends items) :=
  ⟨cutAfter_flatten ends items, fun _ => cutAfter_filled ends, fun _ => cutAfter_quiet ends,
    fun _ => cutAfter_ended ends⟩

variable {ends}

theorem CutsAfter.tail {items run : List α} {runs : List (List α)}
    (cuts : CutsAfter ends (run ++ items) (run :: runs)) : CutsAfter ends items runs where
  whole := List.append_cancel_left cuts.whole
  filled := fun other later => cuts.filled other (List.mem_cons_of_mem _ later)
  quiet := fun other later => cuts.quiet other (List.mem_cons_of_mem _ later)
  ended := by
    intro other later
    cases runs with
    | nil => cases later
    | cons next more => exact cuts.ended other (List.mem_cons_of_mem _ later)

theorem CutsAfter.drop {first second : α} {items run : List α} {runs : List (List α)}
    (cuts : CutsAfter ends (first :: items) ((first :: second :: run) :: runs)) :
    CutsAfter ends items ((second :: run) :: runs) where
  whole := (List.cons.inj cuts.whole).2
  filled := by
    rw [List.forall_mem_cons]
    exact ⟨List.cons_ne_nil _ _, fun other later => cuts.filled other (List.mem_cons_of_mem _ later)⟩
  quiet := by
    rw [List.forall_mem_cons]
    refine ⟨fun item member => ?_, fun other later => cuts.quiet other (List.mem_cons_of_mem _ later)⟩
    exact cuts.quiet _ List.mem_cons_self item (List.mem_cons_of_mem _ member)
  ended := by
    cases runs with
    | nil => simp
    | cons next more =>
      intro other member
      have ended := cuts.ended
      rw [List.dropLast_cons_cons, List.forall_mem_cons, List.getLast?_cons_cons] at ended
      rcases List.mem_cons.mp member with rfl | later
      · exact ended.1
      · exact ended.2 other later

theorem CutsAfter.eq_cutAfter {items : List α} {runs : List (List α)}
    (cuts : CutsAfter ends items runs) : runs = cutAfter ends items := by
  induction items generalizing runs with
  | nil =>
    cases runs with
    | nil => rfl
    | cons run others =>
      have empty := List.append_eq_nil_iff.mp cuts.whole
      exact absurd empty.1 (cuts.filled run List.mem_cons_self)
  | cons first rest ih =>
    obtain ⟨tail, others, rfl⟩ : ∃ tail others, runs = (first :: tail) :: others := by
      cases runs with
      | nil => cases cuts.whole
      | cons run others =>
        obtain ⟨head, tail, rfl⟩ :=
          List.exists_cons_of_ne_nil (cuts.filled run List.mem_cons_self)
        obtain ⟨rfl, _⟩ := List.cons.inj cuts.whole
        exact ⟨tail, others, rfl⟩
    rw [cutAfter]
    cases chosen : ends first with
    | true =>
      -- A chosen element ends its run at once.
      cases tail with
      | nil =>
        have alone : CutsAfter ends ([first] ++ rest) ([first] :: others) := cuts
        rw [← ih alone.tail, if_pos rfl]
      | cons second more =>
        have idle := cuts.quiet _ List.mem_cons_self first List.mem_cons_self
        rw [idle] at chosen
        cases chosen
    | false =>
      rw [if_neg Bool.false_ne_true]
      cases tail with
      | nil =>
        -- A run that ends in another element is the last one.
        cases others with
        | nil =>
          obtain rfl : rest = [] := (List.cons.inj cuts.whole).2.symm
          rfl
        | cons next more =>
          obtain ⟨last, ending, ended⟩ := cuts.ended [first] List.mem_cons_self
          have same : first = last := Option.some.inj ending
          rw [same, ended] at chosen
          cases chosen
      | cons second more => rw [← ih cuts.drop]

end Reentrancy
