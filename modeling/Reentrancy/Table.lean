/-! Finite tables keyed by names, with the entries kept in name order. The order is
part of the type, so two tables that answer every look-up alike are equal and every
walk over a table is deterministic. `Names` is the special case without values. -/
namespace Reentrancy

variable {α : Type}

private theorem lt_of_not_lt {left right : String} (notBefore : ¬ left < right)
    (different : left ≠ right) : right < left := by
  rcases String.le_total left right with below | above
  · exact Decidable.byContradiction fun notAfter =>
      different (String.le_antisymm (String.not_lt.mp notAfter) (String.not_lt.mp notBefore))
  · exact Decidable.byContradiction fun notAfter =>
      different (String.le_antisymm (String.not_lt.mp notAfter) above)

def Increasing (entries : List (String × α)) : Prop :=
  entries.Pairwise fun first second => first.1 < second.1

structure Table (α : Type) where
  entries : List (String × α)
  increasing : Increasing entries

namespace Table

def insertEntry (name : String) (value : α) : List (String × α) → List (String × α)
  | [] => [(name, value)]
  | (key, old) :: rest =>
    if name < key then (name, value) :: (key, old) :: rest
    else if name = key then (name, value) :: rest
    else (key, old) :: insertEntry name value rest

theorem mem_insertEntry {name : String} {value : α} {entries : List (String × α)}
    {entry : String × α} (member : entry ∈ insertEntry name value entries) :
    entry = (name, value) ∨ entry ∈ entries := by
  induction entries with
  | nil => simpa [insertEntry] using member
  | cons first rest ih =>
    obtain ⟨key, old⟩ := first
    simp only [insertEntry] at member
    split at member
    · simpa using member
    · split at member
      · rcases List.mem_cons.mp member with same | later
        · exact Or.inl same
        · exact Or.inr (List.mem_cons_of_mem _ later)
      · rcases List.mem_cons.mp member with same | later
        · exact Or.inr (by simp [same])
        · rcases ih later with same | inside
          · exact Or.inl same
          · exact Or.inr (List.mem_cons_of_mem _ inside)

theorem increasing_insertEntry (name : String) (value : α) {entries : List (String × α)}
    (increasing : Increasing entries) : Increasing (insertEntry name value entries) := by
  induction entries with
  | nil => simp [insertEntry, Increasing]
  | cons first rest ih =>
    obtain ⟨key, old⟩ := first
    obtain ⟨headLess, restIncreasing⟩ := List.pairwise_cons.mp increasing
    simp only [insertEntry]
    split
    next before =>
      refine List.pairwise_cons.mpr ⟨fun entry member => ?_, increasing⟩
      rcases List.mem_cons.mp member with same | later
      · simpa [same] using before
      · exact String.lt_trans before (headLess entry later)
    next notBefore =>
      split
      next same => subst same; exact List.pairwise_cons.mpr ⟨headLess, restIncreasing⟩
      next different =>
        refine List.pairwise_cons.mpr ⟨fun entry member => ?_, ih restIncreasing⟩
        rcases mem_insertEntry member with same | later
        · simpa [same] using lt_of_not_lt notBefore different
        · exact headLess entry later

def empty : Table α := ⟨[], List.Pairwise.nil⟩

instance : EmptyCollection (Table α) := ⟨empty⟩
instance : Inhabited (Table α) := ⟨empty⟩

def insert (table : Table α) (name : String) (value : α) : Table α :=
  ⟨insertEntry name value table.entries, increasing_insertEntry name value table.increasing⟩

def lookup (name : String) : List (String × α) → Option α
  | [] => none
  | (key, value) :: rest => if name = key then some value else lookup name rest

def get? (table : Table α) (name : String) : Option α := lookup name table.entries

def contains (table : Table α) (name : String) : Bool := (table.get? name).isSome

def keys (table : Table α) : List String := table.entries.map (·.1)

def isEmpty (table : Table α) : Bool := table.entries.isEmpty

/-- Binds the pairs from left to right: the last binding of a name stays. -/
def insertAll (table : Table α) (pairs : List (String × α)) : Table α :=
  pairs.foldl (fun built pair => built.insert pair.1 pair.2) table

def ofList (pairs : List (String × α)) : Table α := empty.insertAll pairs

private theorem lookup_insertEntry (name other : String) (value : α)
    (entries : List (String × α)) :
    lookup other (insertEntry name value entries) =
      if other = name then some value else lookup other entries := by
  induction entries with
  | nil => simp [insertEntry, lookup]
  | cons first rest ih =>
    obtain ⟨key, old⟩ := first
    simp only [insertEntry]
    split
    next => simp [lookup]
    next =>
      split
      next equal => subst equal; by_cases same : other = name <;> simp [lookup, same]
      next different =>
        by_cases atKey : other = key
        · subst atKey; simp [lookup, Ne.symm different]
        · simp [lookup, atKey, ih]

@[simp] theorem get?_empty (name : String) : (empty : Table α).get? name = none := rfl

@[simp] theorem get?_insert (table : Table α) (name other : String) (value : α) :
    (table.insert name value).get? other = if other = name then some value else table.get? other :=
  lookup_insertEntry name other value table.entries

end Table

/-- A finite set of names, listed in name order. -/
abbrev Names := Table Unit

namespace Names

def add (names : Names) (name : String) : Names := names.insert name ()

def addAll (names : Names) (more : List String) : Names := more.foldl add names

def ofList (names : List String) : Names := addAll Table.empty names

def union (left right : Names) : Names := addAll left right.keys

def toList (names : Names) : List String := names.keys

end Names
end Reentrancy
