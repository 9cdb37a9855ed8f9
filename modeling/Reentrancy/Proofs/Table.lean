import Reentrancy.Table

/-! Look-ups in tables: after many insertions, in a table made from a list, and after a walk
over the entries of another table. -/
namespace Reentrancy

namespace Table

variable {α β : Type} {table : Table α} {pairs : List (String × α)} {name : String} {value : α}

theorem get?_insertAll (table : Table α) (pairs : List (String × α)) (name : String) :
    (table.insertAll pairs).get? name =
      ((pairs.reverse.find? fun pair => name = pair.1).map (·.2)).or (table.get? name) := by
  induction pairs generalizing table with
  | nil => rfl
  | cons pair rest ih =>
    have step : table.insertAll (pair :: rest) = (table.insert pair.1 pair.2).insertAll rest := rfl
    rw [step, ih, get?_insert, List.reverse_cons, List.find?_append, List.find?_singleton]
    cases rest.reverse.find? fun pair => name = pair.1 with
    | some found => rfl
    | none =>
      by_cases same : name = pair.1
      · simp [same]
      · simp [same]

theorem mem_of_get?_insertAll (found : (table.insertAll pairs).get? name = some value) :
    (name, value) ∈ pairs ∨ table.get? name = some value := by
  induction pairs generalizing table with
  | nil => exact Or.inr found
  | cons pair rest ih =>
    rcases ih found with later | inserted
    · exact Or.inl (List.mem_cons_of_mem _ later)
    · rw [get?_insert] at inserted
      split at inserted
      next same =>
        have equal : (name, value) = pair := Prod.ext same (Option.some.inj inserted).symm
        exact Or.inl (equal ▸ List.mem_cons_self)
      next => exact Or.inr inserted

theorem get?_ofList (pairs : List (String × α)) (name : String) :
    (ofList pairs).get? name = (pairs.reverse.find? fun pair => name = pair.1).map (·.2) := by
  rw [ofList, get?_insertAll, get?_empty, Option.or_none]

theorem get?_ofList_eq_some :
    (ofList pairs).get? name = some value ↔
      ∃ front back, pairs = front ++ (name, value) :: back ∧ ∀ pair ∈ back, pair.1 ≠ name := by
  rw [get?_ofList, Option.map_eq_some_iff]
  constructor
  · rintro ⟨⟨_, _⟩, found, rfl⟩
    obtain ⟨same, back, front, split, absent⟩ := List.find?_eq_some_iff_append.mp found
    obtain rfl := of_decide_eq_true same
    refine ⟨front.reverse, back.reverse, ?_, ?_⟩
    · simpa using congrArg List.reverse split
    · intro pair member equal
      simpa [equal] using absent pair (List.mem_reverse.mp member)
  · rintro ⟨front, back, rfl, absent⟩
    refine ⟨(name, value), ?_, rfl⟩
    rw [List.find?_eq_some_iff_append]
    refine ⟨by simp, back.reverse, front.reverse, by simp, ?_⟩
    intro pair member
    simpa using fun equal => absent pair (List.mem_reverse.mp member) (Eq.symm equal)

theorem get?_ofList_isSome :
    ((ofList pairs).get? name).isSome = true ↔ ∃ pair ∈ pairs, pair.1 = name := by
  rw [get?_ofList, Option.isSome_map, List.find?_isSome]
  simp [eq_comm]

theorem get?_ofList_map (names : List String) (assign : String → α) (name : String) :
    (ofList (names.map fun name => (name, assign name))).get? name =
      if name ∈ names then some (assign name) else none := by
  split
  next member =>
    have present : ∃ pair ∈ names.map fun name => (name, assign name), pair.1 = name :=
      ⟨(name, assign name), List.mem_map_of_mem member, rfl⟩
    obtain ⟨value, found⟩ := Option.isSome_iff_exists.mp (get?_ofList_isSome.mpr present)
    rcases mem_of_get?_insertAll found with made | absent
    · obtain ⟨other, _, equal⟩ := List.mem_map.mp made
      obtain ⟨rfl, rfl⟩ := Prod.mk.inj equal
      exact found
    · cases absent
  next apart =>
    rw [← Option.not_isSome_iff_eq_none, get?_ofList_isSome]
    intro present
    obtain ⟨pair, member, same⟩ := present
    obtain ⟨other, inside, rfl⟩ := List.mem_map.mp member
    exact apart (same ▸ inside)

theorem get?_ofList_of_mem (distinct : (pairs.map (·.1)).Nodup) (member : (name, value) ∈ pairs) :
    (ofList pairs).get? name = some value := by
  obtain ⟨front, back, rfl⟩ := List.append_of_mem member
  rw [get?_ofList_eq_some]
  refine ⟨front, back, rfl, fun pair later same => ?_⟩
  rw [List.map_append, List.map_cons] at distinct
  have apart := (List.nodup_cons.mp (List.nodup_append.mp distinct).2.1).1
  exact apart (List.mem_map.mpr ⟨pair, later, same⟩)

theorem mem_keys : name ∈ table.keys ↔ table.contains name = true := by
  have found (entries : List (String × α)) :
      name ∈ entries.map (·.1) ↔ (lookup name entries).isSome = true := by
    induction entries with
    | nil => simp [lookup]
    | cons entry rest ih =>
      rw [List.map_cons, List.mem_cons, lookup]
      split
      next same => simp [same]
      next other => simp [other, ih]
  exact found table.entries

private theorem lookup_eq_none {entries : List (String × α)}
    (above : ∀ entry ∈ entries, name < entry.1) : lookup name entries = none := by
  induction entries with
  | nil => rfl
  | cons entry rest ih =>
    rw [List.forall_mem_cons] at above
    have other : name ≠ entry.1 := fun same => String.lt_irrefl _ (same ▸ above.1)
    rw [lookup, if_neg other, ih above.2]

private theorem lookup_first (entry : String × α) (rest : List (String × α)) :
    lookup entry.1 (entry :: rest) = some entry.2 := by simp [lookup]

private theorem not_lt_of_lookup {left right : String × α} {others rest : List (String × α)}
    (increasing : Increasing (right :: rest))
    (same : ∀ name, lookup name (left :: others) = lookup name (right :: rest)) :
    ¬ left.1 < right.1 := by
  intro before
  have above : ∀ entry ∈ right :: rest, left.1 < entry.1 := by
    rw [List.forall_mem_cons]
    exact ⟨before, fun entry later =>
      String.lt_trans before ((List.pairwise_cons.mp increasing).1 entry later)⟩
  have found := same left.1
  rw [lookup_first, lookup_eq_none above] at found
  cases found

private theorem eq_of_lookup {left right : List (String × α)} (first : Increasing left)
    (second : Increasing right) (same : ∀ name, lookup name left = lookup name right) :
    left = right := by
  induction left generalizing right with
  | nil =>
    cases right with
    | nil => rfl
    | cons entry rest =>
      have found := same entry.1
      rw [lookup_first] at found
      cases found
  | cons entry others ih =>
    cases right with
    | nil =>
      have found := same entry.1
      rw [lookup_first] at found
      cases found
    | cons other rest =>
      obtain ⟨above, later⟩ := List.pairwise_cons.mp first
      obtain ⟨beyond, after⟩ := List.pairwise_cons.mp second
      have key : entry.1 = other.1 := String.le_antisymm
        (String.not_lt.mp (not_lt_of_lookup first fun name => (same name).symm))
        (String.not_lt.mp (not_lt_of_lookup second same))
      have value : entry.2 = other.2 := by
        have found := same entry.1
        rw [lookup_first, key, lookup_first] at found
        exact Option.some.inj found
      have equal : entry = other := Prod.ext key value
      subst equal
      congr 1
      apply ih later after
      intro name
      by_cases here : name = entry.1
      · subst here
        rw [lookup_eq_none above, lookup_eq_none beyond]
      · simpa [lookup, here] using same name

theorem ext_get? {left right : Table α} (same : ∀ name, left.get? name = right.get? name) :
    left = right := by
  obtain ⟨_, first⟩ := left
  obtain ⟨_, second⟩ := right
  obtain rfl := eq_of_lookup first second same
  rfl

theorem get?_ofList_iff_mem (distinct : (pairs.map (·.1)).Nodup) :
    (ofList pairs).get? name = some value ↔ (name, value) ∈ pairs := by
  constructor
  · intro found
    exact (mem_of_get?_insertAll found).resolve_right (by simp)
  · exact get?_ofList_of_mem distinct

theorem ofList_perm {others : List (String × α)} (distinct : (pairs.map (·.1)).Nodup)
    (permuted : others.Perm pairs) : ofList others = ofList pairs := by
  have apart : (others.map (·.1)).Nodup := (permuted.map _).nodup_iff.mpr distinct
  apply ext_get?
  intro name
  apply Option.ext
  intro value
  rw [get?_ofList_iff_mem apart, get?_ofList_iff_mem distinct, permuted.mem_iff]

/-- A walk over the entries of a table that changes one name at a time. -/
theorem get?_foldl_entries {step : Table β → String × α → Table β}
    {change : Option β → α → Option β}
    (steps : ∀ built entry name, (step built entry).get? name =
      if name = entry.1 then change (built.get? name) entry.2 else built.get? name)
    (table : Table α) (built : Table β) (name : String) :
    (table.entries.foldl step built).get? name =
      (table.get? name).elim (built.get? name) (change (built.get? name)) := by
  obtain ⟨entries, increasing⟩ := table
  change (entries.foldl step built).get? name =
    (lookup name entries).elim (built.get? name) (change (built.get? name))
  induction entries generalizing built with
  | nil => rfl
  | cons entry rest ih =>
    obtain ⟨above, later⟩ := List.pairwise_cons.mp increasing
    rw [List.foldl_cons, ih _ later, lookup, steps]
    by_cases same : name = entry.1
    · subst same
      simp [lookup_eq_none above]
    · simp [same]

end Table

namespace Names

theorem contains_addAll (names : Names) (more : List String) (name : String) :
    (names.addAll more).contains name = true ↔ name ∈ more ∨ names.contains name = true := by
  induction more generalizing names with
  | nil => simp [addAll]
  | cons first rest ih =>
    have step : names.addAll (first :: rest) = (names.add first).addAll rest := rfl
    rw [step, ih, List.mem_cons, Table.contains, Table.contains, add, Table.get?_insert]
    by_cases same : name = first
    · simp [same]
    · simp [same]

theorem contains_ofList {names : List String} {name : String} :
    (ofList names).contains name = true ↔ name ∈ names := by
  rw [ofList, contains_addAll]
  simp [Table.contains]

theorem contains_union (left right : Names) (name : String) :
    (left.union right).contains name = true ↔
      left.contains name = true ∨ right.contains name = true := by
  rw [union, contains_addAll, Table.mem_keys, or_comm]

theorem ext_contains {left right : Names}
    (same : ∀ name, left.contains name = true ↔ right.contains name = true) : left = right := by
  apply Table.ext_get?
  intro name
  have known := Bool.eq_iff_iff.mpr (same name)
  unfold Table.contains at known
  cases here : left.get? name <;> cases there : right.get? name <;> simp_all

theorem ofList_congr {names others : List String} (same : ∀ name, name ∈ others ↔ name ∈ names) :
    ofList others = ofList names := by
  apply ext_contains
  intro name
  rw [contains_ofList, contains_ofList, same]

theorem mem_toList_ofList {names : List String} {name : String} :
    name ∈ (ofList names).toList ↔ name ∈ names :=
  Table.mem_keys.trans contains_ofList

end Names
end Reentrancy
