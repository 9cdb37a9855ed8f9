import Reentrancy.Proofs.Inline.Trace

/-! Whose definition an operand reads after expansion. A walk is told by its definitions in order,
those of the function itself and those of the bodies put in. An operand reads the new version of
its old definition as long as no body defines the same name in between, and again as soon as the
function itself has defined the name anew: names of bodies are not kept apart from the names of
the function. -/
namespace Reentrancy

inductive WalkEvent where
  /-- A definition of the function, old and new. -/
  | own (old new : Variable)
  /-- A definition of a body that was put in. -/
  | foreign (defined : Variable)

namespace WalkEvent

def isOwn (name : String) : WalkEvent → Bool
  | own old _ => old.name == name
  | foreign _ => false

def old? : WalkEvent → Option Variable
  | own old _ => some old
  | foreign _ => none

def isForeign (name : String) : WalkEvent → Bool
  | own .. => false
  | foreign defined => defined.name == name

end WalkEvent

def Passed.events (step : Passed) : List WalkEvent :=
  (step.old.defs.zip step.written.defs).map (fun pair => .own pair.1 pair.2) ++
    (step.spliced.flatMap Instruction.defs).map .foreign

inductive Replays : Walk → List WalkEvent → Walk → Prop where
  | nil (walk : Walk) : Replays walk [] walk
  | enter {walk last : Walk} {events : List WalkEvent}
      (entered : Replays { walk with written := Table.empty } events last) :
      Replays walk events last
  | own (walk : Walk) (old : Variable) {events : List WalkEvent} {last : Walk}
      (later : Replays (walk.redefine old).2 events last) :
      Replays walk (.own old (walk.redefine old).1 :: events) last
  | foreign (walk : Walk) (name : String) {events : List WalkEvent} {last : Walk}
      (later : Replays (walk.define name).2 events last) :
      Replays walk (.foreign (walk.define name).1 :: events) last

section Replaying

theorem Replays.append {first middle last : Walk} {here later : List WalkEvent}
    (replays : Replays first here middle) (rest : Replays middle later last) :
    Replays first (here ++ later) last := by
  induction replays with
  | nil => exact rest
  | enter _ ih => exact .enter (ih rest)
  | own walk old _ ih => exact .own walk old (ih rest)
  | foreign walk name _ ih => exact .foreign walk name (ih rest)

theorem Walk.Defines.replays {first last : Walk} {defined : List Variable}
    (defines : first.Defines defined last) : Replays first (defined.map .foreign) last := by
  induction defines with
  | nil walk => exact .nil walk
  | cons walk name _ ih => exact .foreign walk name ih

theorem mapDefinitions_replays (walk : Walk) (defined : List Variable) :
    Replays walk
      ((defined.zip (mapDefinitions Walk.redefine walk defined).1).map
        fun pair => .own pair.1 pair.2)
      (mapDefinitions Walk.redefine walk defined).2 := by
  induction defined generalizing walk with
  | nil => exact .nil walk
  | cons first rest ih => exact .own walk first (ih (walk.redefine first).2)

variable {expand : String → List Value → Walk → Expansion}

def Passed.KeepsNames (step : Passed) : Prop :=
  step.written.defs.map Variable.name = step.old.defs.map Variable.name ∧
    step.written.uses.map Variable.name = step.old.uses.map Variable.name

theorem Walked.keepsNames {first last : Walk} {steps : List Passed}
    (walked : Walked expand first steps last) : ∀ step ∈ steps, step.KeepsNames := by
  induction walked with
  | nil => simp
  | enter _ ih => exact ih
  | cons walk noPhi _ ih =>
    rw [List.forall_mem_cons]
    refine ⟨⟨?_, ?_⟩, ih⟩
    · rw [(walk.rewrite_eq _).1]
      exact mapDefinitions_names Walk.redefine (fun _ _ => rfl) walk _
    · rw [walk.uses_rewrite noPhi, List.map_map]
      exact List.map_congr_left fun read _ => walk.resolve_name read

variable (defines : ∀ target arguments walk, Walk.Defines walk
    ((expand target arguments walk).instructions.flatMap Instruction.defs)
    (expand target arguments walk).walk)

include defines

theorem Walked.reads_at {first last : Walk} {steps front back : List Passed} {use : Passed}
    (walked : Walked expand first steps last) (split : steps = front ++ use :: back) :
    ∃ walk, Replays first (front.flatMap Passed.events) walk ∧
      use.written.uses = use.old.uses.map walk.resolve := by
  induction walked generalizing front with
  | nil => simp at split
  | enter _ ih =>
    obtain ⟨walk, replays, uses⟩ := ih split
    exact ⟨walk, .enter replays, uses⟩
  | cons walk noPhi _ ih =>
    next old last steps later =>
    cases front with
    | nil =>
      obtain ⟨rfl, rfl⟩ := List.cons.inj split
      exact ⟨walk, .nil walk, walk.uses_rewrite noPhi⟩
    | cons step front =>
      obtain ⟨rfl, others⟩ := List.cons.inj split
      obtain ⟨found, replays, uses⟩ := ih others
      obtain ⟨defs, after⟩ := walk.rewrite_eq old
      have here := mapDefinitions_replays walk old.defs
      have inner := (expandAfter_defines defines (walk.rewrite old).1 (walk.rewrite old).2).replays
      rw [← defs, ← after] at here
      exact ⟨found, (here.append inner).append replays, uses⟩

end Replaying

/-- What a walk knows of the old definition `read`, renamed to `new`, after the events `later`. -/
structure Standing (walk : Walk) (read new : Variable) (later : List WalkEvent) : Prop where
  level : walk.Level
  named : new.name = read.name
  below : new.version ≤ walk.versions.counter.version read.name
  renamed : lookupVariable walk.renamed read = some new.version
  live : isLive walk.live read = !later.any (WalkEvent.isOwn read.name)
  current : walk.versions.current.version read.name = new.version ↔
    later.any (WalkEvent.isOwn read.name) = false ∧
      later.any (WalkEvent.isForeign read.name) = false

namespace Standing

variable {walk : Walk} {read new : Variable} {later : List WalkEvent}

theorem start (level : walk.Level) (read : Variable) :
    Standing (walk.redefine read).2 read (walk.redefine read).1 [] where
  level := level.define read.name
  named := rfl
  below := by
    change _ ≤ (walk.versions.define read.name).2.counter.version read.name
    rw [Versions.counter_define, if_pos rfl]
    exact Nat.le_refl _
  renamed := by simp [Walk.redefine, lookupVariable]
  live := by simp [Walk.redefine, isLive]
  current := by
    change (walk.versions.define read.name).2.current.version read.name = _ ↔ _
    rw [Versions.current_define, if_pos rfl]
    simp [Walk.redefine, Walk.define, Versions.define, Versions.allocate]

theorem resolve_eq_iff (standing : Standing walk read new later) :
    walk.resolve read = new ↔ later.any (WalkEvent.isOwn read.name) = true ∨
      later.any (WalkEvent.isForeign read.name) = false := by
  obtain ⟨name, version⟩ := new
  obtain rfl : name = read.name := standing.named
  have current := standing.current
  unfold Walk.resolve
  rw [standing.live, standing.renamed]
  cases own : later.any (WalkEvent.isOwn read.name) with
  | true => simp
  | false =>
    rw [own] at current
    simpa [Versions.read] using current

theorem own (standing : Standing walk read new later) {old : Variable} (other : old ≠ read) :
    Standing (walk.redefine old).2 read new (later ++ [.own old (walk.redefine old).1]) := by
  obtain ⟨level, named, below, renamed, live, current⟩ := standing
  have counter (name : String) : (walk.redefine old).2.versions.counter.version name =
      if name = old.name then walk.versions.counter.version old.name + 1
      else walk.versions.counter.version name := Versions.counter_define walk.versions old.name name
  have after : (walk.redefine old).2.Level := level.define old.name
  have entered (read : Variable) : isLive (walk.redefine old).2.live read =
      if read.name = old.name then read.version == old.version else isLive walk.live read :=
    isLive_insert walk.live old read
  have listed (read : Variable) : lookupVariable (walk.redefine old).2.renamed read =
      if old = read then some (walk.redefine old).1.version
      else lookupVariable walk.renamed read := lookupVariable_cons walk.renamed old read _
  refine ⟨after, named, ?_, ?_, ?_, ?_⟩
  · rw [counter]
    split
    next same => exact Nat.le_succ_of_le (same ▸ below)
    next => exact below
  · rw [listed, if_neg other, renamed]
  · rw [entered]
    split
    next same =>
      have versions : read.version ≠ old.version := by
        intro equal
        apply other
        cases old
        cases read
        simp_all
      simp [same, versions, WalkEvent.isOwn]
    next same =>
      rw [live]
      simp [WalkEvent.isOwn, Ne.symm same]
  · rw [after, counter]
    by_cases same : read.name = old.name
    · have grown : walk.versions.counter.version old.name + 1 ≠ new.version := by
        rw [same] at below
        omega
      simp [same, grown, WalkEvent.isOwn]
    · rw [if_neg same, ← level, current]
      simp [WalkEvent.isOwn, WalkEvent.isForeign, Ne.symm same]

theorem foreign (standing : Standing walk read new later) (name : String) :
    Standing (walk.define name).2 read new (later ++ [.foreign (walk.define name).1]) := by
  obtain ⟨level, named, below, renamed, live, current⟩ := standing
  have counter (other : String) : (walk.define name).2.versions.counter.version other =
      if other = name then walk.versions.counter.version name + 1
      else walk.versions.counter.version other := Versions.counter_define walk.versions name other
  have after : (walk.define name).2.Level := level.define name
  have defined : (walk.define name).1.name = name := rfl
  refine ⟨after, named, ?_, renamed, ?_, ?_⟩
  · rw [counter]
    split
    next same => exact Nat.le_succ_of_le (same ▸ below)
    next => exact below
  · have kept : (walk.define name).2.live = walk.live := rfl
    rw [kept, live]
    simp [WalkEvent.isOwn]
  · rw [after, counter]
    by_cases same : read.name = name
    · have grown : walk.versions.counter.version name + 1 ≠ new.version := by
        rw [same] at below
        omega
      simp [same, grown, WalkEvent.isForeign, defined]
    · rw [if_neg same, ← level, current]
      simp [WalkEvent.isOwn, WalkEvent.isForeign, defined, Ne.symm same]

theorem replays {last : Walk} {events : List WalkEvent} (standing : Standing walk read new later)
    (replays : Replays walk events last) (once : ∀ again, .own read again ∉ events) :
    Standing last read new (later ++ events) := by
  induction replays generalizing later with
  | nil => simpa using standing
  | enter _ ih =>
    obtain ⟨level, named, below, renamed, live, current⟩ := standing
    exact ih ⟨level, named, below, renamed, live, current⟩ once
  | own walk old _ ih =>
    have other : old ≠ read := by
      rintro rfl
      exact once _ List.mem_cons_self
    have next := ih (standing.own other) fun again member =>
      once again (List.mem_cons_of_mem _ member)
    simpa using next
  | foreign walk name _ ih =>
    have next := ih (standing.foreign name) fun again member =>
      once again (List.mem_cons_of_mem _ member)
    simpa using next

end Standing

theorem Replays.standing {first last : Walk} {events earlier later : List WalkEvent}
    {read new : Variable} (replays : Replays first events last) (level : first.Level)
    (split : events = earlier ++ .own read new :: later) (once : ∀ again, .own read again ∉ later) :
    Standing last read new later := by
  induction replays generalizing earlier with
  | nil => simp at split
  | enter _ ih => exact ih level split
  | own walk old rest ih =>
    cases earlier with
    | nil =>
      obtain ⟨same, rfl⟩ := List.cons.inj split
      obtain ⟨rfl, rfl⟩ := WalkEvent.own.inj same
      exact (Standing.start level old).replays rest once
    | cons _ _ => exact ih (level.define old.name) (List.cons.inj split).2
  | foreign walk name _ ih =>
    cases earlier with
    | nil => cases (List.cons.inj split).1
    | cons _ _ => exact ih (level.define name) (List.cons.inj split).2

theorem Passed.KeepsNames.olds {step : Passed} (keeps : step.KeepsNames) :
    step.events.filterMap WalkEvent.old? = step.old.defs := by
  have lengths : step.old.defs.length ≤ step.written.defs.length := by
    have names := congrArg List.length keeps.1
    simp only [List.length_map] at names
    exact Nat.le_of_eq names.symm
  have foreign : ((step.spliced.flatMap Instruction.defs).map WalkEvent.foreign).filterMap
      WalkEvent.old? = [] := by simp [WalkEvent.old?]
  have own : ((step.old.defs.zip step.written.defs).map fun pair =>
      WalkEvent.own pair.1 pair.2).filterMap WalkEvent.old? = step.old.defs := by
    rw [List.filterMap_map]
    exact (congrFun List.filterMap_eq_map _).trans (List.map_fst_zip lengths)
  rw [events, List.filterMap_append, own, foreign, List.append_nil]

/-- Every operand other than an entry value has its definition among the events before, and reads
the new version of it exactly if the function has defined the name again since or no body has. -/
def ReadsOwn (steps : List Passed) : Prop :=
  ∀ front use back, steps = front ++ use :: back →
    ∀ read found, (read, found) ∈ use.old.uses.zip use.written.uses → 1 ≤ read.version →
      ∃ earlier new later, front.flatMap Passed.events = earlier ++ .own read new :: later ∧
        (found = new ↔ later.any (WalkEvent.isOwn read.name) = true ∨
          later.any (WalkEvent.isForeign read.name) = false)

section Steps

theorem zip_self {α : Type} (items : List α) :
    items.zip items = items.map fun item => (item, item) := by
  have paired : items.map (fun item => (item, id item)) = items.zip (items.map id) :=
    List.map_prod_left_eq_zip
  rw [List.map_id] at paired
  exact paired.symm

variable {steps : List Passed}

theorem Supplied.event {front back : List Passed} {use : Passed} {read : Variable}
    (supplied : Supplied [] (steps.map Passed.old)) (keeps : ∀ step ∈ steps, step.KeepsNames)
    (split : steps = front ++ use :: back) (used : read ∈ use.old.uses)
    (defined : 1 ≤ read.version) :
    ∃ new, .own read new ∈ front.flatMap Passed.events := by
  subst split
  rw [List.map_append, List.map_cons] at supplied
  have before : ∃ step ∈ front, read ∈ step.old.defs := by
    rcases supplied.defined_before read used with entry | known
    · omega
    · rw [List.nil_append, List.flatMap_map] at known
      exact List.mem_flatMap.mp known
  obtain ⟨step, member, inside⟩ := before
  have named := keeps step (List.mem_append_left _ member)
  rw [← named.olds] at inside
  obtain ⟨event, here, old⟩ := List.mem_filterMap.mp inside
  cases event with
  | own old new =>
    obtain rfl := Option.some.inj old
    exact ⟨new, List.mem_flatMap.mpr ⟨step, member, here⟩⟩
  | foreign _ => cases old

theorem olds_of_keepsNames (keeps : ∀ step ∈ steps, step.KeepsNames) :
    (steps.flatMap Passed.events).filterMap WalkEvent.old? =
      (steps.map Passed.old).flatMap Instruction.defs := by
  induction steps with
  | nil => rfl
  | cons step rest ih =>
    rw [List.forall_mem_cons] at keeps
    rw [List.flatMap_cons, List.filterMap_append, keeps.1.olds, ih keeps.2]
    rfl

theorem Walked.readsOwn {expand : String → List Value → Walk → Expansion}
    (defines : ∀ target arguments walk, Walk.Defines walk
      ((expand target arguments walk).instructions.flatMap Instruction.defs)
      (expand target arguments walk).walk) {first last : Walk}
    (walked : Walked expand first steps last) (level : first.Level)
    (supplied : Supplied [] (steps.map Passed.old))
    (once : ((steps.map Passed.old).flatMap Instruction.defs).Nodup) : ReadsOwn steps := by
  intro front use back split read found paired defined
  have keeps := walked.keepsNames
  obtain ⟨walk, replays, uses⟩ := walked.reads_at defines split
  obtain ⟨new, member⟩ := supplied.event keeps split (List.of_mem_zip paired).1 defined
  obtain ⟨earlier, later, events⟩ := List.append_of_mem member
  -- The definitions before the operand are distinct, so the old variable does not come again.
  have single : ∀ again, .own read again ∉ later := by
    intro again twice
    rw [← olds_of_keepsNames keeps, split, List.flatMap_append, List.filterMap_append, events,
      List.filterMap_append, List.filterMap_cons] at once
    have tail := (List.nodup_append.mp (List.nodup_append.mp once).1).2.1
    exact (List.nodup_cons.mp tail).1 (List.mem_filterMap.mpr ⟨_, twice, rfl⟩)
  have standing := replays.standing level events single
  have resolved : found = walk.resolve read := by
    rw [uses, ← List.map_prod_left_eq_zip, List.mem_map] at paired
    obtain ⟨old, _, same⟩ := paired
    obtain ⟨rfl, rfl⟩ := Prod.mk.inj same
    rfl
  refine ⟨earlier, new, later, events, ?_⟩
  rw [resolved]
  exact standing.resolve_eq_iff

theorem events_idle (instructions : List Instruction) :
    (instructions.map Passed.idle).flatMap Passed.events =
      (instructions.flatMap Instruction.defs).map fun defined => .own defined defined := by
  have alone (instruction : Instruction) : (Passed.idle instruction).events =
      instruction.defs.map fun defined => .own defined defined := by
    simp [Passed.events, Passed.idle, zip_self]
  simp [List.flatMap_map, List.map_flatMap, alone]

theorem readsOwn_idle {instructions : List Instruction} (supplied : Supplied [] instructions) :
    ReadsOwn (instructions.map Passed.idle) := by
  intro front use back split read found paired defined
  obtain ⟨earlier, others, rfl, rfl, rest⟩ := List.map_eq_append_iff.mp split
  obtain ⟨instruction, later, rfl, rfl, _⟩ := List.map_eq_cons_iff.mp rest
  have same : found = read := by
    have inside : (read, found) ∈ instruction.uses.zip instruction.uses := paired
    rw [zip_self] at inside
    obtain ⟨_, _, pair⟩ := List.mem_map.mp inside
    obtain ⟨rfl, rfl⟩ := Prod.mk.inj pair
    rfl
  have member : read ∈ earlier.flatMap Instruction.defs := by
    rcases supplied.defined_before read (List.of_mem_zip paired).1 with entry | known
    · omega
    · exact known
  obtain ⟨before, behind, listed⟩ := List.append_of_mem member
  let stays (defined : Variable) : WalkEvent := .own defined defined
  refine ⟨before.map stays, read, behind.map stays, ?_, ?_⟩
  · rw [events_idle, listed, List.map_append, List.map_cons]
  · simp [same, stays, WalkEvent.isForeign]

end Steps

/-- In a function without branches and loops, whatever is put in, an operand that the function
defines reads the new version of its definition if and only if the function has defined the name
again in between, or no body put in since has defined it. -/
theorem inlineBlocks_readsOwn (scope : Scope) {statements : List Statement}
    (plain : ∀ statement ∈ statements, statement.kind.isStructured = false)
    (templates : Table Template) (depth : Nat) (root : String) :
    let body := Body.build scope statements
    ∃ steps, steps.map Passed.old = instructionsOf body.blocks ∧
      steps.flatMap Passed.code =
        instructionsOf (inlineBlocks templates depth root body.versions body.blocks).blocks ∧
      ((steps.map Passed.old).flatMap Instruction.defs).Nodup ∧
      (∀ step ∈ steps, step.KeepsNames) ∧ ReadsOwn steps := by
  intro body
  have supplied := build_supplied scope plain
  obtain ⟨_, extended⟩ := build_extends scope plain
  have once := extended.counted.nodup
  rcases inlineBlocks_walked scope plain templates depth root with ⟨_, same⟩ | walked
  · have olds : ((instructionsOf body.blocks).map Passed.idle).map Passed.old =
        instructionsOf body.blocks := by simp [Function.comp_def, Passed.idle]
    rw [same]
    refine ⟨(instructionsOf body.blocks).map Passed.idle, olds, ?_, ?_, ?_, readsOwn_idle supplied⟩
    · simp [List.flatMap_map, Passed.code, Passed.idle, body]
    · rwa [olds]
    · simp [Passed.KeepsNames, Passed.idle]
  · obtain ⟨steps, last, walked, olds, code, _⟩ := walked
    rw [← olds] at supplied once
    exact ⟨steps, olds, code, once, walked.keepsNames,
      walked.readsOwn (splice_defines templates depth [root]) (fun _ => rfl) supplied once⟩

namespace Shadow

def scope : Scope := { functions := Names.ofList ["f"] }

def declare (value : String) : Statement :=
  .declare [some ⟨"x", "uint256"⟩] (.literal { value := some value })

/-- `uint256 x = 1; f(); total = x;` -/
def caller : List Statement :=
  [declare "1", .expression (.call .plain (.identifier "f" false) [] [] {}),
    .expression (.assign "=" (.identifier "total" false) (.identifier "x" false))]

/-- The body of `f` is `uint256 x = 2;`. -/
def templates : Table Template :=
  Table.ofList [("f", Template.ofBlocks [] (Body.build scope [declare "2"]).blocks)]

end Shadow

theorem shadowed_local_readsOwn :
    let body := Body.build Shadow.scope Shadow.caller
    (∀ statement ∈ Shadow.caller, statement.kind.isStructured = false) ∧
      ∃ steps, steps.map Passed.old = instructionsOf body.blocks ∧
        steps.flatMap Passed.code =
          instructionsOf (inlineBlocks Shadow.templates 1 "g" body.versions body.blocks).blocks ∧
        ((steps.map Passed.old).flatMap Instruction.defs).Nodup ∧
        (∀ step ∈ steps, step.KeepsNames) ∧ ReadsOwn steps := by
  have plain : ∀ statement ∈ Shadow.caller, statement.kind.isStructured = false := by decide
  exact ⟨plain, inlineBlocks_readsOwn Shadow.scope plain Shadow.templates 1 "g"⟩

/-- The local `x` of the caller is defined as `x_1` and its only read turns into `x_2`, which the
body of `f` defines. -/
theorem shadowed_local_reads_foreign :
    let body := Body.build Shadow.scope Shadow.caller
    let inlined := inlineBlocks Shadow.templates 1 "g" body.versions body.blocks
    let told := fun (instruction : Instruction) => (instruction.defs, instruction.uses)
    (instructionsOf body.blocks).map told =
        [([⟨"x", 1⟩], []), ([⟨"ret1", 1⟩], []), ([⟨"total", 1⟩], [⟨"x", 1⟩])] ∧
      (instructionsOf inlined.blocks).map told =
        [([⟨"x", 1⟩], []), ([⟨"ret1", 1⟩], []), ([⟨"x", 2⟩], []),
          ([⟨"total", 1⟩], [⟨"x", 2⟩])] := by
  decide +kernel

end Reentrancy
