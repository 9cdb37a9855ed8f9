import Reentrancy.Proofs.Inline.Templates
import Reentrancy.Proofs.Inline.Trace
import Reentrancy.Proofs.Ssa.Definedness

/-! What expanded code reads. A body that is put in reads what is current and what the call passes.
An operand of the function itself becomes a version that is known by then, unless it is a phi
that its block has outlived: once the block has defined the name itself, nothing stands for the
phi any more and its number is kept. -/
namespace Reentrancy

section Supplies

theorem Supplied.append {known : List Variable} {first second : List Instruction}
    (left : Supplied known first)
    (right : Supplied (known ++ first.flatMap Instruction.defs) second) :
    Supplied known (first ++ second) := by
  induction first generalizing known with
  | nil => simpa using right
  | cons instruction rest ih =>
    refine ⟨left.1, ih left.2 ?_⟩
    rwa [List.append_assoc, ← List.flatMap_cons]

def Given (known reads : List Variable) : Prop := ∀ read ∈ reads, read.version = 0 ∨ read ∈ known

theorem Given.mono {known more reads : List Variable} (given : Given known reads)
    (subset : known ⊆ more) : Given more reads :=
  fun read member => (given read member).imp_right (subset ·)

def Renamed (renamed : List (Variable × Nat)) (known : List Variable) : Prop :=
  ∀ old version, lookupVariable renamed old = some version → ⟨old.name, version⟩ ∈ known

theorem Renamed.mono {renamed : List (Variable × Nat)} {known more : List Variable}
    (points : Renamed renamed known) (subset : known ⊆ more) : Renamed renamed more :=
  fun old version found => subset (points old version found)

theorem Renamed.cons {renamed : List (Variable × Nat)} {known : List Variable}
    (points : Renamed renamed known) {old : Variable} {version : Nat} :
    Renamed ((old, version) :: renamed) (known ++ [⟨old.name, version⟩]) := by
  intro other number found
  rw [lookupVariable_cons] at found
  split at found
  next same =>
    obtain rfl := Option.some.inj found
    exact List.mem_append_right _ (by simp [same])
  next => exact List.mem_append_left _ (points other number found)

end Supplies

section Bodies

variable {known : List Variable}

structure Region.Given (region : Region) (bindings : Table Value) (known : List Variable) :
    Prop where
  current : region.walk.versions.current.Within known
  renamed : Renamed region.renamed known
  bound : ∀ name value, bindings.get? name = some value → Reentrancy.Given known value.reads

namespace Region.Given

variable {region : Region} {bindings : Table Value} (given : region.Given bindings known)

include given

theorem resolve (old : Variable) : Reentrancy.Given known (region.resolve bindings old).reads := by
  have current := given.current old.name
  unfold Region.resolve
  split
  · cases found : bindings.get? old.name with
    | some value => exact given.bound old.name value found
    | none => simpa [Reentrancy.Given, Value.reads, Versions.read] using current
  · cases found : lookupVariable region.renamed old with
    | some version =>
      have there := given.renamed old version found
      simpa [Reentrancy.Given, Value.reads] using .inr there
    | none => simpa [Reentrancy.Given, Value.reads] using current

theorem previous (old : Variable) :
    Reentrancy.Given known
      [Assignment.substitutePrevious (fun read => some (region.resolve bindings read)) old] := by
  intro read member
  obtain rfl := List.mem_singleton.mp member
  have reads := given.resolve old
  unfold Assignment.substitutePrevious
  split
  next replacement found =>
    rw [Option.some.inj found] at reads
    exact reads replacement (List.mem_singleton_self _)
  -- Only a value on entry becomes anything but a variable.
  next apart =>
    left
    by_contra other
    exact apart _ (congrArg some (if_neg other))

theorem uses {instruction : Instruction} (noPhi : instruction.isPhi = false) :
    Reentrancy.Given known
      (instruction.substitute fun read => some (region.resolve bindings read)).uses := by
  intro read member
  obtain ⟨old, _, value | previous⟩ := Instruction.mem_uses_substitute noPhi member
  · exact given.resolve old read value
  · exact given.previous old read (previous ▸ List.mem_singleton_self _)

theorem mono {more : List Variable} (subset : known ⊆ more) : region.Given bindings more :=
  ⟨given.current.mono subset, given.renamed.mono subset,
    fun name value found => (given.bound name value found).mono subset⟩

theorem redefine (old : Variable) :
    (region.redefine old).2.Given bindings (known ++ [(region.redefine old).1]) where
  current := (Versions.Latest.define region.walk.versions old.name).within given.current
  renamed := given.renamed.cons
  bound := (given.mono (List.subset_append_left _ _)).bound

theorem redefineAll (defined : List Variable) :
    (mapDefinitions Region.redefine region defined).2.Given bindings
      (known ++ (mapDefinitions Region.redefine region defined).1) := by
  induction defined generalizing region known with
  | nil => simpa [mapDefinitions] using given
  | cons first rest ih =>
    have later := ih (given.redefine first)
    rwa [List.append_assoc] at later

theorem follow {walk : Walk} {defined : List Variable}
    (defines : region.walk.Defines defined walk) :
    Region.Given ⟨walk, region.renamed⟩ bindings (known ++ defined) where
  current := defines.writes.latest.within given.current
  renamed := given.renamed.mono (List.subset_append_left _ _)
  bound := (given.mono (List.subset_append_left _ _)).bound

end Region.Given

variable {expand : String → List Value → Walk → Expansion}
  (defines : ∀ target arguments walk, Walk.Defines walk
    ((expand target arguments walk).instructions.flatMap Instruction.defs)
    (expand target arguments walk).walk)
  (supplies : ∀ target arguments walk known, walk.versions.current.Within known →
    (∀ value ∈ arguments, Given known value.reads) →
      Supplied known (expand target arguments walk).instructions)

theorem Instruction.reads_arguments (instruction : Instruction) :
    ∀ value ∈ instruction.arguments, value.reads ⊆ instruction.uses := by
  intro value member
  cases instruction with
  | call operation =>
    intro read inside
    simp only [uses, CallOperation.reads, List.mem_append, List.mem_flatMap]
    exact .inr ⟨value, member, inside⟩
  | _ => cases member

section After

include supplies

theorem expandAfter_supplied (written : Instruction) {walk : Walk}
    (within : walk.versions.current.Within known) (given : Given known written.uses) :
    Supplied known (expandAfter expand written walk).instructions := by
  unfold expandAfter
  split
  · refine supplies _ _ walk known within fun value member read inside => ?_
    exact given read (written.reads_arguments value member inside)
  · trivial

include defines

theorem spliceBody_supplied {bindings : Table Value} {region : Region}
    (given : region.Given bindings known) (body : List Instruction)
    (noPhi : ∀ instruction ∈ body, instruction.isPhi = false) :
    Supplied known (spliceBody bindings expand region body).instructions := by
  induction body generalizing region known with
  | nil => trivial
  | cons first rest ih =>
    rw [List.forall_mem_cons] at noPhi
    let bound := (first.bindNames bindings).substitute fun read =>
      some (region.resolve bindings read)
    let written := bound.redefine Region.redefine region
    have reads : Given known written.1.uses := by
      rw [Instruction.uses_redefine]
      exact given.uses (by rw [Instruction.isPhi_bindNames, noPhi.1])
    have after : written.2.Given bindings (known ++ written.1.defs) := by
      obtain ⟨defs, state⟩ := Instruction.redefine_eq Region.redefine region bound
      rw [defs, state]
      exact given.redefineAll bound.defs
    have inner := expandAfter_supplied supplies written.1 after.current
      (reads.mono (List.subset_append_left _ _))
    have others := ih (after.follow (expandAfter_defines defines written.1 written.2.walk)) noPhi.2
    rw [List.append_assoc, ← List.flatMap_cons] at others
    rw [spliceBody_cons]
    exact Supplied.append ⟨reads, inner⟩ others

end After
end Bodies

theorem Template.bindings_given {template : Template} {arguments : List Value}
    {known : List Variable} (given : ∀ value ∈ arguments, Given known value.reads) (name : String)
    (value : Value) (found : (template.bindings arguments).get? name = some value) :
    Given known value.reads := by
  rcases Table.mem_of_get?_insertAll found with made | absent
  · exact given value (List.of_mem_zip made).2
  · simp at absent

theorem splice_supplied {templates : Table Template} (phiFree : templates.PhiFree) (depth : Nat)
    (stack : List String) (target : String) (arguments : List Value) (walk : Walk)
    (known : List Variable) (within : walk.versions.current.Within known)
    (given : ∀ value ∈ arguments, Given known value.reads) :
    Supplied known (splice templates depth stack target arguments walk).instructions := by
  induction depth generalizing stack target arguments walk known with
  | zero => trivial
  | succ depth ih =>
    rw [splice]
    split
    · trivial
    · split
      · trivial
      next template found =>
        have region : Region.Given ⟨walk, []⟩ (template.bindings arguments) known :=
          ⟨within, fun old version absent => (by cases absent), Template.bindings_given given⟩
        exact spliceBody_supplied (splice_defines templates depth (target :: stack))
          (ih (target :: stack)) region template.body (phiFree target template found)

section Caller

/-- Reads of phis from in front of a block after the block itself has defined their name. -/
def outlivedBehind (before : List Instruction) : List Instruction → List Variable
  | [] => []
  | use :: rest =>
    (use.uses.filter fun read =>
      (phiDefs before).contains read && (plainDefs before).any (·.name == read.name)) ++
      outlivedBehind (before ++ [use]) rest

def Block.outlived (block : Block) : List Variable := outlivedBehind [] block.instructions

/-- What is current and what old definitions became is known, and every old definition so far has
become something. -/
structure Walk.Covers (walk : Walk) (olds known : List Variable) : Prop where
  current : walk.versions.current.Within known
  renamed : Renamed walk.renamed known
  complete : ∀ old ∈ olds, (lookupVariable walk.renamed old).isSome = true

/-- Phis are live until the block defines their name. -/
def Walk.HoldsPhis (walk : Walk) (before : List Instruction) : Prop :=
  ∀ read ∈ phiDefs before, isLive walk.live read = true ∨
    ∃ own ∈ plainDefs before, own.name = read.name

section Covers

variable {walk : Walk} {olds known : List Variable} (covers : walk.Covers olds known)

include covers

theorem Walk.Covers.redefine (old : Variable) :
    (walk.redefine old).2.Covers (olds ++ [old]) (known ++ [(walk.redefine old).1]) where
  current := (Versions.Latest.define walk.versions old.name).within covers.current
  renamed := covers.renamed.cons
  complete := by
    intro other member
    change (lookupVariable ((old, _) :: walk.renamed) other).isSome = true
    rw [lookupVariable_cons]
    split
    · rfl
    next different =>
      rcases List.mem_append.mp member with earlier | last
      · exact covers.complete other earlier
      · exact absurd (List.mem_singleton.mp last).symm different

theorem Walk.Covers.redefineAll (defined : List Variable) :
    (mapDefinitions Walk.redefine walk defined).2.Covers (olds ++ defined)
      (known ++ (mapDefinitions Walk.redefine walk defined).1) := by
  induction defined generalizing walk olds known with
  | nil => simpa [mapDefinitions] using covers
  | cons first rest ih =>
    have later := ih (covers.redefine first)
    rwa [List.append_assoc, List.append_assoc] at later

theorem Walk.Covers.follow {after : Walk} {defined : List Variable}
    (defines : walk.Defines defined after) : after.Covers olds (known ++ defined) where
  current := defines.writes.latest.within covers.current
  renamed := by
    rw [defines.notes.2]
    exact covers.renamed.mono (List.subset_append_left _ _)
  complete := by
    rw [defines.notes.2]
    exact covers.complete

theorem Walk.Covers.mono {more : List Variable} (subset : known ⊆ more) : walk.Covers olds more :=
  ⟨covers.current.mono subset, covers.renamed.mono subset, covers.complete⟩

theorem Walk.Covers.enter {entry : WalkExit} (within : entry.current.Within known) :
    (walk.enter entry).Covers olds known :=
  ⟨within, covers.renamed, covers.complete⟩

theorem Walk.Covers.resume {before : WalkExit} (within : before.current.Within known) :
    (walk.resume before).Covers olds known :=
  ⟨covers.current.resume within, covers.renamed, covers.complete⟩

theorem Walk.Covers.resolve {before : List Instruction} (holds : walk.HoldsPhis before)
    {read : Variable} (owned : read.version = 0 ∨ read ∈ olds ∨ read ∈ phiDefs before) :
    (walk.resolve read).version = 0 ∨ walk.resolve read ∈ known ∨
      walk.resolve read = read ∧ read ∈ phiDefs before ∧
        ∃ own ∈ plainDefs before, own.name = read.name := by
  unfold Walk.resolve
  split
  · exact (covers.current read.name).imp_right .inl
  next stale =>
    cases found : lookupVariable walk.renamed read with
    | some version => exact .inr (.inl (covers.renamed read version found))
    | none =>
      rcases owned with entry | old | phi
      · exact .inl entry
      · have known := covers.complete read old
        rw [found] at known
        cases known
      · exact .inr (.inr ⟨rfl, phi, (holds read phi).resolve_left stale⟩)

end Covers

section Phis

variable {walk : Walk} {before : List Instruction}

theorem isLive_meetPhi (walk : Walk) (target read : Variable) :
    isLive (walk.meetPhi target).live read = true ↔
      read = target ∨ isLive walk.live read = true := by
  unfold isLive Walk.meetPhi
  by_cases same : read.name = target.name
  · have equal : read = target ↔ read.version = target.version :=
      ⟨congrArg Variable.version, fun versions => by
        cases read; cases target; exact (Variable.mk.injEq ..).mpr ⟨same, versions⟩⟩
    cases found : walk.live.get? target.name <;> simp [same, found, equal]
  · have other : read ≠ target := fun equal => same (congrArg Variable.name equal)
    simp [same, other]

theorem isLive_redefineAll (walk : Walk) (defined : List Variable) {read : Variable}
    (apart : read.name ∉ defined.map Variable.name) :
    isLive (mapDefinitions Walk.redefine walk defined).2.live read = isLive walk.live read := by
  induction defined generalizing walk with
  | nil => rfl
  | cons first rest ih =>
    rw [List.map_cons, List.mem_cons, not_or] at apart
    have here : isLive (walk.redefine first).2.live read = isLive walk.live read := by
      rw [Walk.redefine]
      simp [apart.1, Walk.define]
    rw [mapDefinitions, ih _ apart.2, here]

theorem Walk.HoldsPhis.meetPhi (holds : walk.HoldsPhis before) (target : Variable)
    (sources : List (String × Variable)) :
    (walk.meetPhi target).HoldsPhis (before ++ [.phi target sources]) := by
  have plain : plainDefs (before ++ [.phi target sources]) = plainDefs before := by
    simp [plainDefs, Instruction.isPhi]
  intro read member
  rw [plain, isLive_meetPhi]
  rw [phiDefs_append, List.mem_append] at member
  rcases member with earlier | here
  · exact (holds read earlier).imp_left .inr
  · have same : read = target := by
      simpa [phiDefs, Instruction.isPhi, Instruction.defs] using here
    exact .inl (.inl same)

theorem Walk.HoldsPhis.redefineAll (holds : walk.HoldsPhis before) {first : Instruction}
    (noPhi : first.isPhi = false) :
    (mapDefinitions Walk.redefine walk first.defs).2.HoldsPhis (before ++ [first]) := by
  have phis : phiDefs (before ++ [first]) = phiDefs before := by simp [phiDefs, noPhi]
  have plain : plainDefs (before ++ [first]) = plainDefs before ++ first.defs := by
    simp [plainDefs, noPhi]
  intro read member
  rw [phis] at member
  rw [plain]
  by_cases named : read.name ∈ first.defs.map Variable.name
  · obtain ⟨own, inside, same⟩ := List.mem_map.mp named
    exact .inr ⟨own, List.mem_append_right _ inside, same⟩
  · rw [isLive_redefineAll walk first.defs named]
    refine (holds read member).imp_right ?_
    rintro ⟨own, inside, same⟩
    exact ⟨own, List.mem_append_left _ inside, same⟩

end Phis

section Blocks

variable {expand : String → List Value → Walk → Expansion}
  (defines : ∀ target arguments walk, Walk.Defines walk
    ((expand target arguments walk).instructions.flatMap Instruction.defs)
    (expand target arguments walk).walk)
  (supplies : ∀ target arguments walk known, walk.versions.current.Within known →
    (∀ value ∈ arguments, Given known value.reads) →
      Supplied known (expand target arguments walk).instructions)

include defines supplies

theorem expandBody_supplied {walk : Walk} {olds known : List Variable}
    {before rest : List Instruction} (covers : walk.Covers (olds ++ plainDefs before) known)
    (holds : walk.HoldsPhis before)
    (owned : ∀ early use late, rest = early ++ use :: late → use.isPhi = false →
      ∀ read ∈ use.uses, read.version = 0 ∨ read ∈ olds ∨
        read ∈ (before ++ early).flatMap Instruction.defs) :
    Supplied (known ++ outlivedBehind before rest) (expandBody expand walk rest).instructions ∧
      (expandBody expand walk rest).walk.Covers (olds ++ plainDefs (before ++ rest))
        (known ++ (expandBody expand walk rest).instructions.flatMap Instruction.defs) := by
  induction rest generalizing walk known before with
  | nil => simpa [expandBody] using ⟨trivial, covers⟩
  | cons first rest ih =>
    have later : ∀ early use late, rest = early ++ use :: late → use.isPhi = false →
        ∀ read ∈ use.uses, read.version = 0 ∨ read ∈ olds ∨
          read ∈ (before ++ [first] ++ early).flatMap Instruction.defs := by
      intro early use late split plain read member
      have found := owned (first :: early) use late (by rw [split]; rfl) plain read member
      simpa using found
    cases phi : first.isPhi with
    | true =>
      cases first with
      | phi target sources =>
        have met : (walk.meetPhi target).Covers
            (olds ++ plainDefs (before ++ [.phi target sources])) known := by
          have same : plainDefs (before ++ [.phi target sources]) = plainDefs before := by
            simp [plainDefs, Instruction.isPhi]
          rw [same]
          exact ⟨covers.current, covers.renamed, covers.complete⟩
        obtain ⟨supplied, covered⟩ := ih met (holds.meetPhi target sources) later
        rw [List.append_assoc, List.singleton_append] at covered
        exact ⟨supplied.mono (by simp [outlivedBehind]), covered⟩
      | _ => simp [Instruction.isPhi] at phi
    | false =>
      let written := walk.rewrite first
      let inner := expandAfter expand written.1 written.2
      obtain ⟨defs, state⟩ := walk.rewrite_eq first
      have reads : Given (known ++ outlivedBehind before (first :: rest)) written.1.uses := by
        rw [walk.uses_rewrite phi]
        intro read member
        obtain ⟨old, inside, rfl⟩ := List.mem_map.mp member
        have source : old.version = 0 ∨ old ∈ olds ++ plainDefs before ∨ old ∈ phiDefs before := by
          rcases owned [] first rest rfl phi old inside with entry | earlier | here
          · exact .inl entry
          · exact .inr (.inl (List.mem_append_left _ earlier))
          · rw [List.append_nil] at here
            exact .inr ((mem_plainDefs_or_phiDefs here).imp_left (List.mem_append_right _))
        rcases covers.resolve holds source with entry | there | ⟨same, listed, own, defined, named⟩
        · exact .inl entry
        · exact .inr (List.mem_append_left _ there)
        · rw [same]
          refine .inr (List.mem_append_right _ (List.mem_append_left _ ?_))
          simp only [List.mem_filter, Bool.and_eq_true, List.contains_iff_mem, List.any_eq_true,
            beq_iff_eq]
          exact ⟨inside, listed, own, defined, named⟩
      have after : written.2.Covers (olds ++ plainDefs (before ++ [first]))
          (known ++ written.1.defs) := by
        have plain : plainDefs (before ++ [first]) = plainDefs before ++ first.defs := by
          simp [plainDefs, phi]
        rw [plain, ← List.append_assoc, defs, state]
        exact covers.redefineAll first.defs
      have held : written.2.HoldsPhis (before ++ [first]) := by
        rw [state]
        exact holds.redefineAll phi
      have emitted := expandAfter_defines defines written.1 written.2
      have between : Supplied (known ++ outlivedBehind before (first :: rest) ++ written.1.defs)
          inner.instructions :=
        expandAfter_supplied supplies written.1 (after.current.mono (by simp))
          (reads.mono (List.subset_append_left _ _))
      have kept : inner.walk.HoldsPhis (before ++ [first]) := by
        unfold Walk.HoldsPhis
        rw [emitted.notes.1]
        exact held
      obtain ⟨supplied, covered⟩ := ih (after.follow emitted) kept later
      rw [expandBody_cons walk phi]
      refine ⟨Supplied.append ⟨reads, between⟩ (supplied.mono ?_), ?_⟩
      · have moved (defined spliced here : List Variable) :
            known ++ defined ++ spliced ++ outlivedBehind (before ++ [first]) rest ⊆
              known ++ (here ++ outlivedBehind (before ++ [first]) rest) ++ (defined ++ spliced) := by
          intro read
          simp only [List.mem_append]
          grind
        exact moved _ _ _
      · simp only [List.append_assoc, List.singleton_append] at covered
        simp only [List.flatMap_append, List.flatMap_cons, List.append_assoc]
        exact covered

def Block.Owns (block : Block) (olds : List Variable) : Prop :=
  ∀ before use after, block.instructions = before ++ use :: after → use.isPhi = false →
    ∀ read ∈ use.uses, read.version = 0 ∨ read ∈ olds ∨ read ∈ before.flatMap Instruction.defs

theorem Block.expand_supplied {block : Block} {walk : Walk} {olds known : List Variable}
    (covers : walk.Covers olds known) (owns : block.Owns olds) :
    Supplied (known ++ block.outlived) (block.expand expand walk).1.instructions ∧
      (block.expand expand walk).2.walk.Covers (olds ++ plainDefs block.instructions)
        (known ++ (block.expand expand walk).1.instructions.flatMap Instruction.defs) := by
  have start : Walk.Covers { walk with written := Table.empty } (olds ++ plainDefs []) known := by
    simpa [plainDefs] using ⟨covers.current, covers.renamed, covers.complete⟩
  have none : Walk.HoldsPhis { walk with written := Table.empty } [] :=
    fun read absent => by cases absent
  exact expandBody_supplied defines supplies start none owns

theorem inlineFrom_supplied (graph : Graph) {exits : List WalkExit} {walk : Walk}
    {olds known : List Variable} (covers : walk.Covers olds known)
    (left : ∀ exit ∈ exits, exit.current.Within known) {blocks : List Block}
    (owns : ∀ (offset : Nat) (block : Block), blocks[offset]? = some block →
      block.Owns (olds ++ plainDefs (instructionsOf (blocks.take offset))))
    {offset : Nat} {expanded : Block}
    (located : (inlineFrom graph expand exits walk blocks).blocks[offset]? = some expanded) :
    ∃ block, blocks[offset]? = some block ∧
      Supplied (known ++ defsOf ((inlineFrom graph expand exits walk blocks).blocks.take offset) ++
        block.outlived) expanded.instructions := by
  induction blocks generalizing exits walk olds known offset with
  | nil => cases located
  | cons block rest ih =>
    let entry := block.armExit? graph exits
    let start := (entry.map walk.enter).getD walk
    let here := (block.expand expand start).1
    let after := (block.expand expand start).2.walk
    let resumed := if entry.isSome then after.resume walk.exit else after
    let reached := known ++ here.instructions.flatMap Instruction.defs
    have entered : start.Covers olds known := by
      unfold start
      cases found : entry with
      | none => exact covers
      | some exit => exact covers.enter (left exit (Block.armExit?_mem found))
    have own : block.Owns olds := by simpa [plainDefs, instructionsOf] using owns 0 block rfl
    obtain ⟨supplied, covered⟩ := block.expand_supplied defines supplies entered own
    have grown : known ⊆ reached := List.subset_append_left _ _
    cases offset with
    | zero =>
      obtain rfl := Option.some.inj located
      refine ⟨block, rfl, ?_⟩
      have nothing : defsOf [] = [] := rfl
      rw [List.take_zero, nothing, List.append_nil]
      exact supplied
    | succ offset =>
      have going : resumed.Covers (olds ++ plainDefs block.instructions) reached := by
        unfold resumed
        split
        · exact covered.resume (covers.current.mono grown)
        · exact covered
      have ended : ∀ exit ∈ exits ++ [after.exit], exit.current.Within reached := by
        intro exit member
        rcases List.mem_append.mp member with earlier | last
        · exact (left exit earlier).mono grown
        · obtain rfl := List.mem_singleton.mp last
          exact covered.current
      have later (place : Nat) (other : Block) (found : rest[place]? = some other) :
          other.Owns (olds ++ plainDefs block.instructions ++
            plainDefs (instructionsOf (rest.take place))) := by
        have given := owns (place + 1) other found
        simpa [instructionsOf, plainDefs_append] using given
      obtain ⟨other, found, reads⟩ := ih going ended later located
      refine ⟨other, found, ?_⟩
      rw [List.append_assoc known, ← defsOf_cons] at reads
      exact reads

end Blocks
end Caller

end Reentrancy
