import Reentrancy.Proofs.Meaning.Renumbering

/-! Scalar code under expansion. A walk over a function and the region of a body put in are two
ways to number code anew; in both, code that reads no lost version computes what it computed
before. To a body everything on entry comes from elsewhere, to the function only what a body put
in has written. -/
namespace Reentrancy

structure Walk.Tracks (old : Versions) (ledger : Ledger) (walk : Walk) : Prop where
  fits : ledger.Fits old
  level : walk.Level
  live : ∀ read, isLive walk.live read = true ↔ read.version = old.current.version read.name
  below : ∀ read, read.version ≤ old.current.version read.name →
    (lookupVariable walk.renamed read).getD read.version ≤ walk.versions.counter.version read.name
  clean : ∀ name, ledger.foreign name = false →
    (lookupVariable walk.renamed (old.read name)).getD (old.current.version name) =
      walk.versions.current.version name

namespace Walk.Tracks

variable {old : Versions} {ledger : Ledger} {walk : Walk}

theorem start (current : ∀ name, old.current.version name = 0)
    (counter : ∀ name, old.counter.version name = 0) (calls : Nat) :
    Walk.Tracks old { foreign := fun _ => false } (.start calls) where
  fits := .start current counter _
  level _ := rfl
  live read := by simp [Walk.start, isLive, current]
  below read counted := Nat.le_zero.mp (current read.name ▸ counted) ▸ Nat.le_refl 0
  clean name _ := current name

theorem resolve_live (tracks : walk.Tracks old ledger) {read : Variable}
    (live : read.version = old.current.version read.name) :
    walk.resolve read = walk.versions.read read.name :=
  if_pos ((tracks.live read).mpr live)

theorem resolve_passed (tracks : walk.Tracks old ledger) {read : Variable}
    (passed : read.version ≠ old.current.version read.name) :
    walk.resolve read = ⟨read.name, (lookupVariable walk.renamed read).getD read.version⟩ :=
  if_neg fun live => passed ((tracks.live read).mp live)

theorem define (tracks : walk.Tracks old ledger) (name : String) :
    (walk.redefine (old.define name).1).2.Tracks (old.define name).2
      (ledger.define (old.define name).1) := by
  obtain ⟨fits, level, live, below, clean⟩ := tracks
  let target := (old.define name).1
  have current (other : String) : (walk.redefine target).2.versions.current.version other =
      if other = name then walk.versions.counter.version name + 1
      else walk.versions.current.version other := Versions.current_define walk.versions name other
  have counter (other : String) : (walk.redefine target).2.versions.counter.version other =
      if other = name then walk.versions.counter.version name + 1
      else walk.versions.counter.version other := Versions.counter_define walk.versions name other
  have listed (read : Variable) : lookupVariable (walk.redefine target).2.renamed read =
      if target = read then some (walk.versions.counter.version name + 1)
      else lookupVariable walk.renamed read := lookupVariable_cons walk.renamed target read _
  refine ⟨fits.define name, level.define name, ?_, ?_, ?_⟩
  · intro read
    have entered : isLive (walk.redefine target).2.live read =
        if read.name = name then read.version == target.version else isLive walk.live read :=
      isLive_insert walk.live target read
    rw [entered, Versions.current_define]
    split
    · simp [target]
    · exact live read
  · intro read counted
    rw [listed, counter]
    split
    next same =>
      rw [← same]
      exact Nat.le_of_eq (if_pos rfl).symm
    next other =>
      have bound := below read (fits.counted_before counted (Ne.symm other))
      split
      next same =>
        rw [same] at bound
        omega
      next => exact bound
  · intro other clear
    rw [listed, current, Versions.current_define]
    by_cases same : other = name
    · have read : (old.define name).2.read other = target := by
        rw [same]
        exact (Versions.read_define old name name).trans (if_pos rfl)
      rw [read, if_pos rfl, if_pos same, if_pos same, Option.getD_some]
    · have read : (old.define name).2.read other = old.read other :=
        (Versions.read_define old name other).trans (if_neg same)
      have apart : target ≠ old.read other := fun equal =>
        same (congrArg Variable.name equal).symm
      have before : ledger.foreign other = false := by
        simpa [Ledger.define, same] using clear
      rw [read, if_neg apart, if_neg same, if_neg same]
      exact clean other before

theorem enter (tracks : walk.Tracks old ledger) (written : Names) :
    Walk.Tracks old ledger { walk with written } :=
  ⟨tracks.fits, tracks.level, tracks.live, tracks.below, tracks.clean⟩

/-- A new definition makes the version before it passed; what it stood for is found among the
renamed ones unless it came from elsewhere. -/
theorem resolve_kept (tracks : walk.Tracks old ledger) (name : String) (read : Variable)
    (counted : read.version ≤ old.current.version read.name)
    (kept : read ∉ (ledger.define (old.define name).1).lost) :
    (walk.redefine (old.define name).1).2.resolve read = walk.resolve read := by
  have after := tracks.define name
  have fits := tracks.fits
  let target := (old.define name).1
  have level := fits.level read.name
  have apart : target ≠ read := fits.define_ne name counted
  have listed : lookupVariable (walk.redefine target).2.renamed read =
      lookupVariable walk.renamed read :=
    (lookupVariable_cons walk.renamed target read _).trans (if_neg apart)
  by_cases same : read.name = name
  · have passed : read.version ≠ (old.define name).2.current.version read.name := by
      rw [Versions.current_define, if_pos same]
      rw [same] at counted level
      omega
    rw [after.resolve_passed passed, listed]
    by_cases live : read.version = old.current.version read.name
    · have clear : ledger.foreign name = false := by
        by_contra foreign
        apply kept
        rw [Ledger.mem_lost_define]
        refine Or.inr ⟨by simpa using foreign, ?_⟩
        rw [Versions.name_define, fits.current, ← same, ← live]
      have clean := tracks.clean name clear
      rw [tracks.resolve_live live]
      have this : old.read name = read := by
        rw [Versions.read, ← same, ← live]
      rw [this, ← same, ← live] at clean
      rw [clean]
      rfl
    · rw [tracks.resolve_passed live]
  · have current : (old.define name).2.current.version read.name =
        old.current.version read.name :=
      (Versions.current_define old name read.name).trans (if_neg same)
    by_cases live : read.version = old.current.version read.name
    · rw [after.resolve_live (live.trans current.symm), tracks.resolve_live live]
      exact (Versions.read_define walk.versions name read.name).trans (if_neg same)
    · rw [after.resolve_passed (current ▸ live), tracks.resolve_passed live, listed]

theorem define_foreign (tracks : walk.Tracks old ledger) {name : String}
    (foreign : ledger.foreign name = true) : (walk.define name).2.Tracks old ledger := by
  obtain ⟨fits, level, live, below, clean⟩ := tracks
  have current (other : String) : (walk.define name).2.versions.current.version other =
      if other = name then walk.versions.counter.version name + 1
      else walk.versions.current.version other := Versions.current_define walk.versions name other
  have counter (other : String) : (walk.define name).2.versions.counter.version other =
      if other = name then walk.versions.counter.version name + 1
      else walk.versions.counter.version other := Versions.counter_define walk.versions name other
  refine ⟨fits, level.define name, live, ?_, ?_⟩
  · intro read counted
    have bound := below read counted
    rw [counter]
    split
    next same =>
      rw [same] at bound
      exact Nat.le_succ_of_le bound
    next => exact bound
  · intro other clear
    have apart : other ≠ name := by
      rintro rfl
      rw [foreign] at clear
      cases clear
    rw [current, if_neg apart]
    exact clean other clear

theorem shadow (tracks : walk.Tracks old ledger) {defined : List Variable} {after : Walk}
    (defines : walk.Defines defined after) {names : List String}
    (listed : defined.map Variable.name = names) : after.Tracks old (ledger.shadow names) := by
  have start : walk.Tracks old (ledger.shadow names) := by
    refine ⟨tracks.fits.shadow names, tracks.level, tracks.live, tracks.below,
      fun name clear => tracks.clean name ?_⟩
    exact (Bool.or_eq_false_iff.mp clear).1
  have inside : ∀ definition ∈ defined, (ledger.shadow names).foreign definition.name = true := by
    intro definition member
    have named : definition.name ∈ names := listed ▸ List.mem_map_of_mem member
    simp [Ledger.shadow, named]
  clear listed tracks
  induction defines with
  | nil => exact start
  | cons walk name _ ih =>
    rw [List.forall_mem_cons] at inside
    exact ih (start.define_foreign inside.1) inside.2

theorem recount (tracks : walk.Tracks old ledger) (calls : Nat) :
    walk.Tracks { old with calls } ledger :=
  ⟨tracks.fits.recount calls, tracks.level, tracks.live, tracks.below, tracks.clean⟩

end Walk.Tracks

def walkNumbering : Renumbering Walk where
  versions := Walk.versions
  resolve := Walk.resolve
  redefine := Walk.redefine
  Tracks := Walk.Tracks
  fits tracks := tracks.fits
  defined _ _ := rfl
  resolve_read tracks name := tracks.resolve_live rfl
  counted {old _ _} tracks read counted := by
    refine ⟨Walk.resolve_name _ read, ?_⟩
    by_cases live : read.version = old.current.version read.name
    · rw [tracks.resolve_live live]
      exact Nat.le_of_eq (tracks.level read.name)
    · rw [tracks.resolve_passed live]
      exact tracks.below read counted
  advance tracks name := tracks.define name
  resolve_defined tracks name := by
    rw [(tracks.define name).resolve_live]
    · exact (Versions.read_define _ name name).trans (if_pos rfl)
    · exact ((Versions.current_define _ name name).trans (if_pos rfl)).symm
  resolve_kept tracks name read counted kept := tracks.resolve_kept name read counted kept

def Region.rename (region : Region) (read : Variable) : Variable :=
  if read.version = 0 then region.walk.versions.read read.name
  else ⟨read.name, (lookupVariable region.renamed read).getD
    (region.walk.versions.current.version read.name)⟩

structure Region.Tracks (old : Versions) (ledger : Ledger) (region : Region) : Prop where
  fits : ledger.Fits old
  level : region.walk.Level
  entered : ∀ name, old.current.version name = 0 → ledger.foreign name = true
  written : ∀ name, old.current.version name ≠ 0 → ⟨name, 0⟩ ∈ ledger.lost
  renamed : ∀ read : Variable, read.version ≠ 0 →
    read.version ≤ old.current.version read.name → ∃ new, lookupVariable region.renamed read =
      some new ∧ new ≤ region.walk.versions.counter.version read.name
  latest : ∀ name, old.current.version name ≠ 0 → lookupVariable region.renamed (old.read name) =
    some (region.walk.versions.current.version name)

namespace Region.Tracks

variable {old : Versions} {ledger : Ledger} {region : Region}

theorem start {old : Versions} (current : ∀ name, old.current.version name = 0)
    (counter : ∀ name, old.counter.version name = 0) {walk : Walk} (level : walk.Level) :
    Region.Tracks old { foreign := fun _ => true } ⟨walk, []⟩ where
  fits := .start current counter _
  level := level
  entered _ _ := rfl
  written name defined := absurd (current name) defined
  renamed read defined counted :=
    absurd (Nat.le_zero.mp (current read.name ▸ counted)) defined
  latest name defined := absurd (current name) defined

theorem rename_entry {read : Variable} (entry : read.version = 0) :
    region.rename read = region.walk.versions.read read.name := if_pos entry

theorem rename_defined {read : Variable} (defined : read.version ≠ 0) {new : Nat}
    (found : lookupVariable region.renamed read = some new) :
    region.rename read = ⟨read.name, new⟩ := by
  rw [Region.rename, if_neg defined, found]
  rfl

theorem define (tracks : region.Tracks old ledger) (name : String) :
    (region.redefine (old.define name).1).2.Tracks (old.define name).2
      (ledger.define (old.define name).1) := by
  obtain ⟨fits, level, entered, written, renamed, latest⟩ := tracks
  let target := (old.define name).1
  have current (other : String) : (region.redefine target).2.walk.versions.current.version other =
      if other = name then region.walk.versions.counter.version name + 1
      else region.walk.versions.current.version other :=
    Versions.current_define region.walk.versions name other
  have counter (other : String) : (region.redefine target).2.walk.versions.counter.version other =
      if other = name then region.walk.versions.counter.version name + 1
      else region.walk.versions.counter.version other :=
    Versions.counter_define region.walk.versions name other
  have listed (read : Variable) : lookupVariable (region.redefine target).2.renamed read =
      if target = read then some (region.walk.versions.counter.version name + 1)
      else lookupVariable region.renamed read :=
    lookupVariable_cons region.renamed target read _
  refine ⟨fits.define name, level.define name, ?_, ?_, ?_, ?_⟩
  · intro other entry
    rw [Versions.current_define] at entry
    split at entry
    · cases entry
    next apart => simp [Ledger.define, apart, entered other entry]
  · intro other defined
    rw [Ledger.mem_lost_define]
    by_cases before : old.current.version other = 0
    · have same : other = name := by
        by_contra apart
        rw [Versions.current_define, if_neg apart] at defined
        exact defined before
      subst same
      exact Or.inr ⟨entered other before, by rw [Versions.name_define, fits.current, before]⟩
    · exact Or.inl (written other before)
  · intro read defined counted
    rw [listed, counter]
    split
    next same =>
      rw [← same]
      exact ⟨_, rfl, Nat.le_of_eq (if_pos rfl).symm⟩
    next other =>
      obtain ⟨new, found, below⟩ := renamed read defined
        (fits.counted_before counted (Ne.symm other))
      refine ⟨new, found, ?_⟩
      split
      next same =>
        rw [same] at below
        omega
      next => exact below
  · intro other defined
    rw [listed, current, Versions.read_define]
    by_cases same : other = name
    · rw [if_pos same, if_pos rfl, if_pos same]
    · have apart : target ≠ old.read other := fun equal =>
        same (congrArg Variable.name equal).symm
      rw [Versions.current_define, if_neg same] at defined
      rw [if_neg same, if_neg apart, if_neg same]
      exact latest other defined

theorem resolve_kept (tracks : region.Tracks old ledger) (name : String) (read : Variable)
    (counted : read.version ≤ old.current.version read.name)
    (kept : read ∉ (ledger.define (old.define name).1).lost) :
    (region.redefine (old.define name).1).2.rename read = region.rename read := by
  let target := (old.define name).1
  by_cases entry : read.version = 0
  · have apart : read.name ≠ name := by
      intro same
      have lost := (tracks.define name).written read.name (by
        rw [Versions.current_define, if_pos same]
        exact Nat.succ_ne_zero _)
      rw [← entry] at lost
      exact kept lost
    rw [rename_entry entry, rename_entry entry]
    exact (Versions.read_define region.walk.versions name read.name).trans (if_neg apart)
  · obtain ⟨new, found, _⟩ := tracks.renamed read entry counted
    have apart : target ≠ read := tracks.fits.define_ne name counted
    have listed : lookupVariable (region.redefine target).2.renamed read = some new :=
      ((lookupVariable_cons region.renamed target read _).trans (if_neg apart)).trans found
    rw [rename_defined entry listed, rename_defined entry found]

end Region.Tracks

def regionNumbering : Renumbering Region where
  versions region := region.walk.versions
  resolve := Region.rename
  redefine := Region.redefine
  Tracks := Region.Tracks
  fits tracks := tracks.fits
  defined _ _ := rfl
  resolve_read {old _ _} tracks name := by
    by_cases entry : old.current.version name = 0
    · exact Region.Tracks.rename_entry entry
    · exact Region.Tracks.rename_defined entry (tracks.latest name entry)
  counted tracks read counted := by
    by_cases entry : read.version = 0
    · rw [Region.Tracks.rename_entry entry]
      exact ⟨rfl, Nat.le_of_eq (tracks.level read.name)⟩
    · obtain ⟨new, found, below⟩ := tracks.renamed read entry counted
      rw [Region.Tracks.rename_defined entry found]
      exact ⟨rfl, below⟩
  advance tracks name := tracks.define name
  resolve_defined tracks name := by
    apply Region.Tracks.rename_defined (Nat.succ_ne_zero _)
    exact (lookupVariable_cons _ _ _ _).trans (if_pos rfl)
  resolve_kept tracks name read counted kept := tracks.resolve_kept name read counted kept

theorem Token.replaceFrom_none (token text : List Char) :
    replaceFrom (fun _ => none) token text = token.reverse ++ text := by
  induction text generalizing token with
  | nil => simp [replaceFrom, renamed]
  | cons c rest ih =>
    rw [replaceFrom, ih, ih, ih]
    cases token with
    | nil => simp
    | cons => simp [renamed]

@[simp] theorem bindText_empty (text : String) : bindText Table.empty text = text := by
  simp [bindText, Token.replace, Token.replaceFrom_none]

@[simp] theorem bindVariable_empty (named : Variable) : bindVariable Table.empty named = named := by
  simp [bindVariable, Table.contains]

theorem Instruction.bindNames_empty (instruction : Instruction) :
    instruction.bindNames Table.empty = instruction := by
  have values : Value.bindNames Table.empty = id :=
    funext (Value.substitute_id fun read => by simp)
  have named : bindVariable Table.empty = id := funext bindVariable_empty
  cases instruction <;> simp [bindNames, values, named]

theorem Region.resolve_empty (region : Region) (read : Variable) :
    region.resolve Table.empty read = .var (region.rename read) := by
  unfold resolve rename
  split <;> simp

section Bodies

variable (expand : String → List Value → Walk → Expansion)

theorem expandAfter_quiet {written : Instruction} (quiet : written.internalTarget? = none)
    (walk : Walk) : expandAfter expand written walk = { walk } := by
  unfold expandAfter
  rw [quiet]

theorem spliceBody_quiet (region : Region) {first : Instruction} (rest : List Instruction)
    (quiet : (regionNumbering.rewrite region first).1.internalTarget? = none) :
    let written := regionNumbering.rewrite region first
    let others := spliceBody Table.empty expand written.2 rest
    (spliceBody Table.empty expand region (first :: rest)).instructions =
        written.1 :: others.instructions ∧
      (spliceBody Table.empty expand region (first :: rest)).walk = others.walk := by
  have resolved : (fun read => some (region.resolve Table.empty read)) =
      fun read => some (.var (region.rename read)) :=
    funext fun read => congrArg some (region.resolve_empty read)
  let written := regionNumbering.rewrite region first
  let inner := expandAfter expand written.1 written.2.walk
  have skipped : inner = { walk := written.2.walk } := expandAfter_quiet expand quiet written.2.walk
  rw [spliceBody_cons, Instruction.bindNames_empty, resolved]
  change written.1 :: inner.instructions ++
      (spliceBody Table.empty expand ⟨inner.walk, written.2.renamed⟩ rest).instructions = _ ∧
    (spliceBody Table.empty expand ⟨inner.walk, written.2.renamed⟩ rest).walk = _
  rw [skipped]
  exact ⟨rfl, rfl⟩

variable {D : Type} {meaning : Meaning D} {put : Instruction → List String}
  (quiet : ∀ instruction, instruction.isScalar = true → put instruction = [])

include quiet

theorem spliceBody_mirrors {old new : Versions} {body : List Instruction}
    (code : Code old body new) {ledger : Ledger} {region : Region} {env model after : Env D}
    (mirrors : regionNumbering.Mirrors old ledger region env model)
    (kept : ledger.readsKept put body = true)
    (ran : Instruction.runAll meaning body model = some after) :
    let spliced := spliceBody Table.empty expand region body
    ∃ last ended passed, Instruction.runAll meaning spliced.instructions env = some last ∧
      spliced.walk = ended.walk ∧ regionNumbering.Mirrors new passed ended last after ∧
      (spliced.instructions.flatMap Instruction.defs).map Variable.name =
        (body.flatMap Instruction.defs).map Variable.name := by
  induction body generalizing old ledger region env model with
  | nil =>
    cases code
    obtain rfl := Option.some.inj ran
    exact ⟨env, region, ledger, rfl, rfl, mirrors, rfl⟩
  | cons first rest ih =>
    obtain ⟨middle, next, between, others, run, calm, later, left, mirrored⟩ :=
      mirrors.step quiet code kept ran
    obtain ⟨last, ended, passed, runs, walks, final, names⟩ := ih others mirrored left later
    obtain ⟨instructions, walk⟩ := spliceBody_quiet expand region rest calm
    refine ⟨last, ended, passed, ?_, walk.trans walks, final, ?_⟩
    · rw [instructions, Instruction.runAll, run]
      exact runs
    · rw [instructions, List.flatMap_cons, List.flatMap_cons, List.map_append, List.map_append,
        regionNumbering.names_rewrite, names]

variable {expand}

theorem Walked.mirrors {old new : Versions} {front back : List Instruction}
    (code : Code old front new) {ledger : Ledger} {env model after : Env D} {first finish : Walk}
    {steps : List Passed} (walked : Walked expand first steps finish)
    (olds : steps.map Passed.old = front ++ back)
    (mirrors : walkNumbering.Mirrors old ledger first env model)
    (kept : ledger.readsKept put front = true)
    (ran : Instruction.runAll meaning front model = some after) :
    ∃ last middle later, Walked expand middle later finish ∧ later.map Passed.old = back ∧
      Instruction.runAll meaning (steps.flatMap Passed.code) env =
        Instruction.runAll meaning (later.flatMap Passed.code) last ∧
      walkNumbering.Mirrors new (front.foldl (Ledger.pass put) ledger) middle last after := by
  induction front generalizing old ledger env model first steps with
  | nil =>
    cases code
    obtain rfl := Option.some.inj ran
    exact ⟨env, first, steps, walked, olds, rfl, mirrors⟩
  | cons instruction front ih =>
    obtain ⟨written, rest, others, listed, rfl⟩ := walked.uncons olds
    let start := { first with written }
    have entered : walkNumbering.Mirrors old ledger start env model :=
      ⟨mirrors.tracks.enter written, mirrors.holds⟩
    obtain ⟨middle, next, between, code, run, calm, later, left, mirrored⟩ :=
      entered.step quiet code kept ran
    have inner : expandAfter expand (start.rewrite instruction).1 (start.rewrite instruction).2 =
        { walk := (start.rewrite instruction).2 } := expandAfter_quiet expand calm _
    have onward : Walked expand (start.rewrite instruction).2 rest finish := by
      have same := congrArg Expansion.walk inner
      rwa [same] at others
    obtain ⟨last, after, behind, walked, olds, runs, final⟩ :=
      ih code onward listed mirrored left later
    refine ⟨last, after, behind, walked, olds, ?_, final⟩
    have wrote : (start.rewrite instruction).1.run meaning env = some next := run
    have nothing := congrArg Expansion.instructions inner
    rw [List.flatMap_cons, Passed.code, List.cons_append, Instruction.runAll, wrote, nothing]
    exact runs

end Bodies

end Reentrancy
