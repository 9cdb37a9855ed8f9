import Reentrancy.Proofs.Inline.Alike
import Reentrancy.Proofs.Meaning.Build
import Reentrancy.Proofs.Meaning.Expansion
import Reentrancy.Proofs.Meaning.Program

/-! Expansion and the meaning of straight-line programs. If neither the caller nor a function that
it calls reads a lost version, executing the expanded caller leaves in every variable what the
source leaves there. A caller loses the value that a call left in a variable as soon as it writes
the variable itself, a function the value of a variable on entry. -/
namespace Reentrancy

def Template.writes (template : Template) : List String :=
  (template.body.flatMap Instruction.defs).map Variable.name

def writtenAfter (templates : Table Template) (instruction : Instruction) : List String :=
  ((instruction.internalTarget?.bind templates.get?).map Template.writes).getD []

theorem writtenAfter_scalar (templates : Table Template) (instruction : Instruction)
    (scalar : instruction.isScalar = true) : writtenAfter templates instruction = [] := by
  cases instruction with
  | assign | expression => rfl
  | _ => cases scalar

namespace Program

variable (program : Program)

/-- No operand is lost: neither in the caller, to which the bodies put in are foreign, nor in a
function, to which everything on entry is. -/
def ReadsKept : Prop :=
  Ledger.readsKept (writtenAfter program.templates) { foreign := fun _ => false }
      (instructionsOf (Body.build program.scope program.caller).blocks) = true ∧
    ∀ function ∈ program.functions,
      Ledger.readsKept (fun _ => []) { foreign := fun _ => true }
        (instructionsOf (Body.build program.scope function.2).blocks) = true

theorem get?_templates (name : String) :
    program.templates.get? name = ((Table.ofList program.functions).get? name).map fun body =>
      Template.ofBlocks [] (Body.build program.scope body).blocks := by
  rw [templates, Table.get?_ofList, Table.get?_ofList, ← List.map_reverse, List.find?_map]
  simp [Function.comp_def]

theorem mem_functions {name : String} {body : List Statement}
    (found : (Table.ofList program.functions).get? name = some body) :
    (name, body) ∈ program.functions := by
  obtain ⟨front, back, split, _⟩ := Table.get?_ofList_eq_some.mp found
  rw [split]
  exact List.mem_append_right _ List.mem_cons_self

end Program

theorem Code.scalar {old new : Versions} {body : List Instruction} (code : Code old body new) :
    ∀ instruction ∈ body, instruction.isScalar = true := by
  induction code with
  | nil => simp
  | assign old name target single _ _ ih =>
    rw [List.forall_mem_cons]
    exact ⟨by simp [Instruction.isScalar, single], ih⟩
  | expression old _ _ ih =>
    rw [List.forall_mem_cons]
    exact ⟨rfl, ih⟩

theorem Template.body_ofBlocks {parameters : List String} {blocks : List Block}
    (scalar : ∀ instruction ∈ instructionsOf blocks, instruction.isScalar = true) :
    (ofBlocks parameters blocks).body = instructionsOf blocks := by
  apply List.filter_eq_self.mpr
  intro instruction member
  have only := scalar instruction member
  cases instruction with
  | phi | ret => cases only
  | _ => rfl

section Statements

variable {D : Type} {meaning : Meaning D}

theorem update_define (env : Env D) (versions : Versions) (name : String) (value : D)
    (slot : String) :
    Function.update env (versions.define name).1 value ((versions.define name).2.read slot) =
      Function.update (fun slot => env (versions.read slot)) name value slot := by
  rw [Versions.read_define]
  by_cases same : slot = name
  · rw [if_pos same, same, Function.update_self, Function.update_self]
  · rw [if_neg same, Function.update_of_ne same]
    apply Function.update_of_ne
    intro equal
    exact same (congrArg Variable.name equal)

theorem Simulated.code {α : Type} {step : Lower α} {reads : α → List Variable}
    (runs : Lower.Runs [] step reads) {versions : Versions} (bounded : versions.Bounded)
    {env last : Env D} {after : Store D} {holds : Env D → α → Prop}
    (simulated : Simulated meaning versions env (step versions) last after holds) :
    Code versions (step versions).emission.instructions (step versions).versions := by
  obtain ⟨_, _, _, run⟩ := runs versions [] (by simp)
  exact run.code ⟨bounded, by simp⟩ simulated.scalar

theorem build_code (meaning : Meaning D) (scope : Scope) {body : List Statement}
    (scalar : ∀ statement ∈ body, statement.isScalar = true) (store : Store D) :
    ∃ seeded : Versions, (∀ name, seeded.current.version name = 0) ∧
      (∀ name, seeded.counter.version name = 0) ∧ ∀ env, Agrees env seeded store →
        Code seeded (instructionsOf (Body.build scope body).blocks)
          (Body.build scope body).versions ∧
        ∃ last, Instruction.runAll meaning (instructionsOf (Body.build scope body).blocks) env =
            some last ∧
          Agrees last (Body.build scope body).versions (Statement.execAll meaning body store) := by
  obtain ⟨seeded, current, counter, _, instructions, versions⟩ := build_straight scope
    fun statement member => (Statement.plain_of_isScalar (scalar statement member)).1
  have bounded : seeded.Bounded := fun name => current name ▸ Nat.zero_le _
  refine ⟨seeded, current, counter, fun env agrees => ?_⟩
  obtain ⟨last, done⟩ := Statement.lowerBody_simulates meaning scope scalar (fun _ => True) store
    seeded env bounded agrees fun _ _ => trivial
  rw [instructions, versions]
  exact ⟨done.code (Statement.lowerBody_runs scope [] body) bounded, last, done.runs, done.agrees⟩

end Statements

theorem Scope.classifyName_internal {scope : Scope} {name : String}
    (internal : scope.classifyName name false = .internal) (predefined : Bool) :
    scope.classifyName name predefined = .internal := by
  unfold classifyName at internal ⊢
  split at internal
  · cases internal
  next rejected =>
    rw [if_neg rejected]
    split at internal
    next known => rw [if_pos known]
    next => split at internal <;> cases internal

theorem Statement.lowerBody_mem (scope : Scope) {statement : Statement}
    {statements : List Statement} (member : statement ∈ statements) (old : Versions) :
    ∃ versions, (statement.lower scope versions).emission.instructions ⊆
      (lowerBody scope statements old).emission.instructions := by
  induction statements generalizing old with
  | nil => cases member
  | cons first rest ih =>
    have split : (lowerBody scope (first :: rest) old).emission.instructions =
        (first.lower scope old).emission.instructions ++
          (lowerBody scope rest (first.lower scope old).versions).emission.instructions := rfl
    rw [split]
    rcases List.mem_cons.mp member with rfl | later
    · exact ⟨old, List.subset_append_left ..⟩
    · obtain ⟨versions, inside⟩ := ih later (first.lower scope old).versions
      exact ⟨versions, List.subset_append_of_subset_right _ inside⟩

theorem Statement.callee?_eq_some {statement : Statement} {name : String}
    (calls : statement.callee? = some name) :
    ∃ form predefined labels location,
      statement = .expression (.call form (.identifier name predefined) [] labels location) ∧
        (form = .plain ∨ form = .unmarked) := by
  unfold callee? at calls
  split at calls
  · split at calls
    next marked =>
      obtain rfl := Option.some.inj calls
      exact ⟨_, _, _, _, rfl, marked⟩
    next => cases calls
  · cases calls

theorem Statement.lower_callee {scope : Scope} {statement : Statement} {name : String}
    (calls : statement.callee? = some name) (internal : scope.classifyName name false = .internal)
    (versions : Versions) :
    ∃ location, (statement.lower scope versions).emission.instructions =
        [.call { result := versions.nextResult.1, callee := name, type := .internal, location }] ∧
      (statement.lower scope versions).versions = versions.nextResult.2 := by
  obtain ⟨form, predefined, labels, location, rfl, marked⟩ := callee?_eq_some calls
  let callee := Expression.identifier name predefined
  have plain : (Expression.isConversion form callee || form == .construction) = false := by
    rcases marked with rfl | rfl <;> rfl
  have type : scope.classify callee = .internal := Scope.classifyName_internal internal predefined
  have lowered : (Expression.call form callee [] labels location).lower scope = do
      let result ← Lower.invoke name .internal none [] [] location
      return .var result := by
    rw [Expression.lower, if_neg (by simp [plain]), type]
    rfl
  have leaves : (Expression.call form callee [] labels location).leavesInstruction = true := by
    simp [Expression.leavesInstruction, plain]
  refine ⟨location, ?_⟩
  rw [lower, if_neg (by simp [Expression.isMissing]), if_pos leaves, lowered]
  exact ⟨rfl, rfl⟩

namespace Program

variable {program : Program} {D : Type} (meaning : Meaning D)

theorem exec_scalar (program : Program) {statement : Statement} (scalar : statement.isScalar = true)
    (store : Store D) : program.exec meaning statement store = statement.exec meaning store := by
  have none : statement.callee? = none := by
    cases statement with
    | expression value =>
      cases value with
      | call => cases scalar
      | _ => rfl
    | _ => rfl
  rw [exec, none]
  rfl

theorem splice_runs (kept : program.ReadsKept) {name : String} {body : List Statement}
    (found : (Table.ofList program.functions).get? name = some body) (other : name ≠ program.root)
    (depth : Nat) {walk : Walk} (level : walk.Level) (env : Env D) :
    let spliced := splice program.templates (depth + 1) [program.root] name [] walk
    ∃ last, Instruction.runAll meaning spliced.instructions env = some last ∧
      (∀ slot, last (spliced.walk.versions.read slot) =
        Statement.execAll meaning body (fun slot => env (walk.versions.read slot)) slot) ∧
      (spliced.instructions.flatMap Instruction.defs).map Variable.name =
        (Template.ofBlocks [] (Body.build program.scope body).blocks).writes := by
  have member := program.mem_functions found
  obtain ⟨seeded, current, counter, simulated⟩ := build_code meaning program.scope
    (program.scalar _ member) fun slot => env (walk.versions.read slot)
  let region : Region := ⟨walk, []⟩
  have tracks : region.Tracks seeded { foreign := fun _ => true } :=
    .start current counter level
  have agrees : Agrees (fun read => env (region.rename read)) seeded fun slot =>
      env (walk.versions.read slot) :=
    fun slot => congrArg env (Region.Tracks.rename_entry (current slot))
  obtain ⟨code, final, ran, holds⟩ := simulated _ agrees
  obtain ⟨last, ended, _, runs, walks, mirrored, names⟩ := spliceBody_mirrors
    (splice program.templates depth [name, program.root]) (fun _ _ => rfl) code
    (Renumbering.Mirrors.start tracks env) (kept.2 _ member) ran
  let template := Template.ofBlocks [] (Body.build program.scope body).blocks
  have made : program.templates.get? name = some template := by
    rw [program.get?_templates, found]
    rfl
  have listed : template.body = instructionsOf (Body.build program.scope body).blocks :=
    Template.body_ofBlocks code.scalar
  have unfolded : splice program.templates (depth + 1) [program.root] name [] walk =
      let spliced := spliceBody Table.empty (splice program.templates depth [name, program.root])
        region (instructionsOf (Body.build program.scope body).blocks)
      { spliced with spliced := spliced.spliced + 1 } := by
    rw [splice, if_neg (by simpa using other), made, ← listed]
    rfl
  rw [unfolded]
  refine ⟨last, runs, fun slot => ?_, by rw [Template.writes, listed]; exact names⟩
  have read := (mirrored.current slot).trans (holds slot)
  rw [← read]
  exact congrArg (fun walk : Walk => last (walk.versions.read slot)) walks

/-- The walk over a call, with the body that is put in after it. The result of the call goes to a
name of its own. -/
theorem call_runs (kept : program.ReadsKept) {depth : Nat} {name : String} {body : List Statement}
    (found : (Table.ofList program.functions).get? name = some body) (plain : '.' ∉ name.toList)
    (other : name ≠ program.root) {old : Versions} {ledger : Ledger} {walk finish : Walk}
    {steps : List Passed} {back : List Instruction} {location : Location} {env : Env D}
    (walked : Walked (splice program.templates (depth + 1) [program.root]) walk steps finish)
    (tracks : walk.Tracks old ledger) :
    let call := Instruction.call
      { result := old.nextResult.1, callee := name, type := .internal, location }
    steps.map Passed.old = call :: back → ∃ last middle later,
      Walked (splice program.templates (depth + 1) [program.root]) middle later finish ∧
      later.map Passed.old = back ∧
      Instruction.runAll meaning (steps.flatMap Passed.code) env =
        Instruction.runAll meaning (later.flatMap Passed.code) last ∧
      middle.Tracks old.nextResult.2 (ledger.pass (writtenAfter program.templates) call) ∧
      ∀ slot, last (middle.versions.read slot) = Statement.execAll meaning body
        (Function.update (fun slot => env (walk.versions.read slot))
          (Versions.resultName (old.calls + 1)) (meaning.result name)) slot := by
  intro call olds
  obtain ⟨written, later, onward, listed, rfl⟩ := walked.uncons olds
  let start := { walk with written }
  let entered := (start.redefine old.nextResult.1).2
  have target : (start.rewrite call).1.internalTarget? = some name := by
    change (if CallType.internal = .internal then some (Text.afterLast '.' name) else none) = _
    rw [if_pos rfl, Text.afterLast_of_not_mem plain]
  have spliced : expandAfter (splice program.templates (depth + 1) [program.root])
      (start.rewrite call).1 (start.rewrite call).2 =
        splice program.templates (depth + 1) [program.root] name [] entered := by
    unfold expandAfter
    rw [target]
    rfl
  have named : entered.Tracks old.nextResult.2 (ledger.define old.nextResult.1) :=
    ((tracks.enter written).recount (old.calls + 1)).define (Versions.resultName (old.calls + 1))
  let assigned := Function.update env (start.redefine old.nextResult.1).1 (meaning.result name)
  obtain ⟨last, runs, values, names⟩ := splice_runs meaning kept found other depth named.level
    assigned
  have shadowed := named.shadow
    (splice_defines program.templates (depth + 1) [program.root] name [] entered) names
  have put : writtenAfter program.templates call =
      (Template.ofBlocks [] (Body.build program.scope body).blocks).writes := by
    have internal : call.internalTarget? = some name := target
    rw [writtenAfter, internal, Option.bind_some, program.get?_templates, found, Option.map_some,
      Option.map_some, Option.getD_some]
  refine ⟨last, (splice program.templates (depth + 1) [program.root] name [] entered).walk, later,
    ?_, listed, ?_, ?_, fun slot => ?_⟩
  · rwa [spliced] at onward
  · have written : (start.rewrite call).1.run meaning env = some assigned := rfl
    rw [List.flatMap_cons, Passed.code, spliced, List.cons_append, Instruction.runAll, written,
      Option.bind_some, Instruction.runAll_append, runs]
    rfl
  · rw [Ledger.pass, put]
    exact shadowed
  · rw [values slot]
    congr 1
    funext slot
    exact update_define env walk.versions _ _ slot

theorem statement_runs (kept : program.ReadsKept) {depth : Nat} {statement : Statement}
    (member : statement ∈ program.caller) {old : Versions} {ledger : Ledger} {walk finish : Walk}
    {steps : List Passed} {back : List Instruction} {env : Env D} {store : Store D}
    (walked : Walked (splice program.templates (depth + 1) [program.root]) walk steps finish)
    (olds : steps.map Passed.old =
      (statement.lower program.scope old).emission.instructions ++ back)
    (tracks : walk.Tracks old ledger)
    (reads : ledger.readsKept (writtenAfter program.templates)
      (statement.lower program.scope old).emission.instructions = true)
    (agrees : Store.AgreesOn IsOrdinary (fun slot => env (walk.versions.read slot)) store) :
    ∃ last middle later,
      Walked (splice program.templates (depth + 1) [program.root]) middle later finish ∧
      later.map Passed.old = back ∧
      Instruction.runAll meaning (steps.flatMap Passed.code) env =
        Instruction.runAll meaning (later.flatMap Passed.code) last ∧
      middle.Tracks (statement.lower program.scope old).versions
        ((statement.lower program.scope old).emission.instructions.foldl
          (Ledger.pass (writtenAfter program.templates)) ledger) ∧
      Store.AgreesOn IsOrdinary (fun slot => last (middle.versions.read slot))
        (program.exec meaning statement store) := by
  rcases program.formed statement member with
    scalar | ⟨name, body, calls, found, internal, plain, other⟩
  · have ordinary := program.ordinary statement (List.mem_append_left _ member)
    have bounded : old.Bounded := fun slot => Nat.le_of_eq (tracks.fits.level slot)
    have agreed : Agrees (fun read => env (walk.resolve read)) old fun slot =>
        env (walk.versions.read slot) := fun slot => congrArg env (tracks.resolve_live rfl)
    obtain ⟨final, done⟩ := Statement.lower_simulates meaning program.scope scalar (fun _ => True) _
      old _ bounded agreed fun _ _ => trivial
    have code := done.code (Statement.lower_runs program.scope [] statement) bounded
    obtain ⟨last, middle, later, onward, listed, runs, mirrored⟩ :=
      Walked.mirrors (writtenAfter_scalar program.templates) code walked olds
        (Renumbering.Mirrors.start tracks env) reads done.runs
    refine ⟨last, middle, later, onward, listed, runs, mirrored.tracks, ?_⟩
    have values : (fun slot => last (middle.versions.read slot)) =
        statement.exec meaning fun slot => env (walk.versions.read slot) :=
      funext fun slot => (mirrored.current slot).trans (done.agrees slot)
    rw [values, program.exec_scalar meaning scalar]
    exact Statement.exec_agrees meaning scalar ordinary agrees
  · obtain ⟨location, instructions, versions⟩ := Statement.lower_callee calls internal old
    rw [instructions] at olds ⊢
    rw [versions]
    obtain ⟨last, middle, later, onward, listed, runs, tracked, values⟩ :=
      call_runs meaning kept found plain other walked tracks olds
    refine ⟨last, middle, later, onward, listed, runs, tracked, ?_⟩
    have inside := program.mem_functions found
    have ran : program.exec meaning statement store = Statement.execAll meaning body store := by
      rw [exec, calls, Option.bind_some, found]
    rw [ran, funext values]
    apply Statement.execAll_agrees meaning (program.scalar _ inside)
    · intro statement member
      exact program.ordinary statement
        (List.mem_append_right _ (List.mem_flatMap.mpr ⟨_, inside, member⟩))
    · intro slot ordinary
      rw [Function.update_of_ne (ordinary _)]
      exact agrees slot ordinary

theorem caller_runs (kept : program.ReadsKept) {depth : Nat} {statements : List Statement}
    (inside : ∀ statement ∈ statements, statement ∈ program.caller) {old : Versions}
    {ledger : Ledger} {walk finish : Walk} {steps : List Passed} {env : Env D} {store : Store D}
    (walked : Walked (splice program.templates (depth + 1) [program.root]) walk steps finish)
    (olds : steps.map Passed.old =
      (Statement.lowerBody program.scope statements old).emission.instructions)
    (tracks : walk.Tracks old ledger)
    (reads : ledger.readsKept (writtenAfter program.templates)
      (Statement.lowerBody program.scope statements old).emission.instructions = true)
    (agrees : Store.AgreesOn IsOrdinary (fun slot => env (walk.versions.read slot)) store) :
    ∃ last, Instruction.runAll meaning (steps.flatMap Passed.code) env = some last ∧
      Store.AgreesOn IsOrdinary (fun slot => last (finish.versions.read slot))
        (program.execAll meaning statements store) := by
  induction statements generalizing old ledger walk steps env store with
  | nil =>
    have done : steps = [] := List.map_eq_nil_iff.mp olds
    subst done
    refine ⟨env, rfl, ?_⟩
    rw [walked.versions_of_nil rfl]
    exact agrees
  | cons first rest ih =>
    rw [List.forall_mem_cons] at inside
    have split : (Statement.lowerBody program.scope (first :: rest) old).emission.instructions =
        (first.lower program.scope old).emission.instructions ++
          (Statement.lowerBody program.scope rest
            (first.lower program.scope old).versions).emission.instructions := rfl
    rw [split] at olds
    rw [split, Ledger.readsKept_append, Bool.and_eq_true] at reads
    obtain ⟨middle, between, later, onward, listed, runs, tracked, agreed⟩ :=
      statement_runs meaning kept inside.1 walked olds tracks reads.1 agrees
    obtain ⟨last, finished, final⟩ := ih inside.2 onward listed tracked reads.2 agreed
    exact ⟨last, runs.trans finished, final⟩

theorem execAll_scalar (program : Program) {statements : List Statement}
    (scalar : ∀ statement ∈ statements, statement.isScalar = true) (store : Store D) :
    program.execAll meaning statements store = Statement.execAll meaning statements store := by
  induction statements generalizing store with
  | nil => rfl
  | cons first rest ih =>
    rw [List.forall_mem_cons] at scalar
    have here := program.exec_scalar meaning scalar.1 store
    have later := ih scalar.2 (first.exec meaning store)
    rw [← here] at later
    simpa [execAll, Statement.execAll, here] using later

theorem plain_caller (program : Program) : ∀ statement ∈ program.caller,
    statement.kind.isStructured = false ∧ statement.kind ≠ .ret ∧ statement.isRevert = false := by
  intro statement member
  rcases program.formed statement member with scalar | ⟨name, _, calls, _, internal, _⟩
  · exact Statement.plain_of_isScalar scalar
  · obtain ⟨form, predefined, labels, location, rfl, _⟩ := Statement.callee?_eq_some calls
    refine ⟨rfl, by simp [Statement.kind], ?_⟩
    rw [Statement.isRevert, beq_eq_false_iff_ne]
    rintro rfl
    cases internal

theorem unstructured (program : Program) :
    ∀ statement ∈ program.caller, statement.kind.isStructured = false :=
  fun statement member => (program.plain_caller statement member).1

theorem scalar_of_idle (program : Program)
    (idle : hasTargets program.templates program.root
      (Body.build program.scope program.caller).blocks = false) :
    ∀ statement ∈ program.caller, statement.isScalar = true := by
  intro statement member
  rcases program.formed statement member with
    scalar | ⟨name, body, calls, found, internal, plain, other⟩
  · exact scalar
  · exfalso
    obtain ⟨seeded, _, _, _, instructions, _⟩ :=
      build_straight program.scope program.unstructured
    obtain ⟨versions, inside⟩ := Statement.lowerBody_mem program.scope member seeded
    obtain ⟨location, lowered, _⟩ := Statement.lower_callee calls internal versions
    rw [lowered, ← instructions] at inside
    rw [hasTargets, List.any_eq_false] at idle
    have skipped := idle _ (inside List.mem_cons_self)
    have target : Text.afterLast '.' name = name := Text.afterLast_of_not_mem plain
    simp [Instruction.internalTarget?, target, other, Table.contains, program.get?_templates,
      found] at skipped

end Program

theorem Body.inline_straight (scope : Scope) {statements : List Statement}
    (plain : ∀ statement ∈ statements, statement.kind.isStructured = false)
    (templates : Table Template) (depth : Nat) (root : String) :
    let body := build scope statements
    let inlined := inlineBlocks templates depth root body.versions body.blocks
    instructionsOf (body.inline templates depth root).blocks = instructionsOf inlined.blocks ∧
      (body.inline templates depth root).versions = inlined.versions := by
  intro body inlined
  have sound := build_sound scope statements
  have graph : graphOf (inlined.blocks.map refresh) = graphOf body.blocks := by
    rw [graphOf_refresh]
    unfold inlined inlineBlocks
    split
    · rfl
    · exact graphOf_inlineFrom ..
  have joined : insertPhis inlined.exits inlined.versions (inlined.blocks.map refresh) =
      { blocks := inlined.blocks.map refresh, versions := inlined.versions } := by
    apply insertPhis_plain
    · rw [graph]
      exact build_onward scope plain
    · rw [graph]
      exact ⟨sound.numbered.distinct, sound.decided, sound.numbered.inside⟩
  rw [inline]
  split
  · exact ⟨rfl, rfl⟩
  · change instructionsOf (insertPhis inlined.exits inlined.versions _).blocks = _ ∧
      (insertPhis inlined.exits inlined.versions _).versions = _
    rw [joined]
    exact ⟨instructionsOf_refresh _, rfl⟩

theorem Instruction.noPhi_of_runAll {D : Type} {meaning : Meaning D}
    {instructions : List Instruction} {env last : Env D}
    (ran : runAll meaning instructions env = some last) :
    ∀ instruction ∈ instructions, instruction.isPhi = false := by
  induction instructions generalizing env with
  | nil => simp
  | cons first rest ih =>
    obtain ⟨middle, here, there⟩ := Option.bind_eq_some_iff.mp ran
    rw [List.forall_mem_cons]
    refine ⟨?_, ih there⟩
    cases first with
    | phi => cases here
    | _ => rfl

section Meaning

variable {D : Type} (meaning : Meaning D)

theorem Program.expanded_runs (program : Program) (kept : program.ReadsKept) (depth : Nat)
    (env : Env D) :
    let body := Body.build program.scope program.caller
    let inlined := inlineBlocks program.templates (depth + 1) program.root body.versions body.blocks
    ∃ last, Instruction.runAll meaning (instructionsOf inlined.blocks) env = some last ∧
      Store.AgreesOn IsOrdinary (fun slot => last (inlined.versions.read slot))
        (program.execAll meaning program.caller fun slot => env ⟨slot, 0⟩) := by
  intro body inlined
  rcases inlineBlocks_walked program.scope program.unstructured program.templates (depth + 1)
      program.root with
    ⟨idle, same⟩ | ⟨steps, finish, walked, olds, code, versions⟩
  · have scalar := program.scalar_of_idle (by simpa using idle)
    obtain ⟨seeded, current, _, simulated⟩ := build_code meaning program.scope scalar fun slot =>
      env ⟨slot, 0⟩
    obtain ⟨_, last, ran, holds⟩ := simulated env fun slot => by rw [Versions.read, current]
    have blocks : inlined.blocks = body.blocks := congrArg Inlined.blocks same
    have ended : inlined.versions = body.versions := congrArg Inlined.versions same
    rw [blocks, ended, program.execAll_scalar meaning scalar]
    exact ⟨last, ran, fun slot _ => holds slot⟩
  · obtain ⟨seeded, current, counter, _, instructions, _⟩ :=
      build_straight program.scope program.unstructured
    have tracks : Walk.Tracks seeded { foreign := fun _ => false }
        (.start body.versions.calls) :=
      .start current counter body.versions.calls
    have reads := kept.1
    rw [instructions] at olds reads
    rw [← code, ← versions]
    exact Program.caller_runs meaning kept (fun _ member => member) walked olds tracks reads
      fun _ _ => rfl

theorem Program.inlined_runs (program : Program) (kept : program.ReadsKept) (depth : Nat)
    (env : Env D) :
    ∃ last, Instruction.runAll meaning (instructionsOf (program.inlined (depth + 1)).blocks) env =
        some last ∧
      Store.AgreesOn IsOrdinary
        (fun slot => last ((program.inlined (depth + 1)).versions.read slot))
        (program.execAll meaning program.caller fun slot => env ⟨slot, 0⟩) := by
  obtain ⟨instructions, versions⟩ := Body.inline_straight program.scope program.unstructured
    program.templates (depth + 1) program.root
  rw [inlined, instructions, versions]
  exact program.expanded_runs meaning kept depth env

theorem Program.inlined_settled (program : Program) (depth : Nat) :
    Settled (program.inlined depth).free (program.inlined depth).blocks :=
  Body.inline_settled program.scope program.caller program.templates depth program.root

theorem Program.inlined_chain (program : Program) (depth : Nat) :
    (graphOf (program.inlined depth).blocks).Chain := by
  rw [inlined, Body.graphOf_inline]
  exact Body.build_chain program.scope program.unstructured fun statement member =>
    (program.plain_caller statement member).2

theorem Program.execute_inlined (program : Program) (depth : Nat) {env last : Env D}
    (ran : Instruction.runAll meaning (instructionsOf (program.inlined depth).blocks) env =
      some last) : execute meaning (program.inlined depth).finish.1 env = some last := by
  have settled := program.inlined_settled depth
  have chain := program.inlined_chain depth
  -- The rest holds of every body that is settled and a chain.
  generalize program.inlined depth = body at settled chain ran ⊢
  have executed := Body.execute_finish meaning settled chain (Instruction.noPhi_of_runAll ran) env
  exact executed.trans ran

/-- Executing a caller that was built, expanded and finished ends with the current version of every
name holding what the source leaves in the name. -/
theorem inline_keeps_meaning (program : Program) (kept : program.ReadsKept) (depth : Nat)
    (env : Env D) :
    let body := program.inlined (depth + 1)
    ∃ last, execute meaning body.finish.1 env = some last ∧ ∀ name, IsOrdinary name →
      last ⟨name, body.versions.current.version name⟩ =
        program.execAll meaning program.caller (fun name => env ⟨name, 0⟩) name := by
  obtain ⟨last, ran, agrees⟩ := program.inlined_runs meaning kept depth env
  exact ⟨last, program.execute_inlined meaning (depth + 1) ran, agrees⟩

end Meaning

theorem isOrdinary_of_head? {name : String} (head : name.toList.head? ≠ some 'r') :
    IsOrdinary name := by
  rintro call rfl
  apply head
  simp [Versions.resultName]

namespace CallSample

def x : Expression := .identifier "x" false
def y : Expression := .identifier "y" false
def one : Expression := .literal { value := some "1" }
def call : Statement := .expression (.call .plain (.identifier "f" false) [] [] {})

def program (caller body : List Statement)
    (scalar : ∀ statement ∈ body, statement.isScalar = true)
    (formed : ∀ statement ∈ caller, statement.isScalar = true ∨ statement.callee? = some "f")
    (ordinary : ∀ statement ∈ caller ++ body, ∀ name ∈ statement.names,
      name.toList.head? ≠ some 'r') : Program where
  scope := { functions := Names.ofList ["f"] }
  root := "g"
  caller
  functions := [("f", body)]
  scalar := by simpa using scalar
  formed statement member := by
    refine (formed statement member).imp_right fun calls => ?_
    exact ⟨"f", body, calls, by simp [Table.get?_ofList], by decide, by decide, by decide⟩
  ordinary statement member name inside :=
    isOrdinary_of_head? (ordinary statement (by simpa using member) name inside)

/-- The caller `y = x++; f(); y += x; f();` with `x = y; x += 1;` for `f`. -/
def interleaved : Program :=
  program
    [.expression (.assign "=" y (.unary "++" false x)), call, .expression (.assign "+=" y x), call]
    [.expression (.assign "=" x y), .expression (.assign "+=" x one)]
    (by decide) (by decide) (by decide)

/-- The caller `f(); y = x++;` with `x = 1;` for `f`. -/
def overtaken : Program :=
  program [call, .expression (.assign "=" y (.unary "++" false x))]
    [.expression (.assign "=" x one)] (by decide) (by decide) (by decide)

end CallSample

theorem interleaved_keeps_meaning :
    let start : Env Int := fun read => if read.name = "x" then 5 else 7
    CallSample.interleaved.ReadsKept ∧
      ∃ last, execute counting (CallSample.interleaved.inlined 1).finish.1 start = some last ∧
        last ⟨"x", (CallSample.interleaved.inlined 1).versions.current.version "x"⟩ = 12 ∧
        last ⟨"y", (CallSample.interleaved.inlined 1).versions.current.version "y"⟩ = 11 := by
  intro start
  have kept : CallSample.interleaved.ReadsKept := ⟨by decide +kernel, by decide +kernel⟩
  obtain ⟨last, executed, holds⟩ :=
    inline_keeps_meaning counting CallSample.interleaved kept 0 start
  rw [Nat.zero_add] at executed holds
  refine ⟨kept, last, executed, ?_, ?_⟩
  · rw [holds "x" (isOrdinary_of_head? (by decide))]
    decide +kernel
  · rw [holds "y" (isOrdinary_of_head? (by decide))]
    decide +kernel

/-- The call leaves one in `x`, so `y` should end as one; it ends as what `x` was on entry. -/
theorem overtaken_loses_value :
    CallSample.overtaken.execAll counting CallSample.overtaken.caller (fun _ => 0) "y" = 1 ∧
      (execute counting (CallSample.overtaken.inlined 1).finish.1 fun _ => 0).map
        (fun last => last ⟨"y", (CallSample.overtaken.inlined 1).versions.current.version "y"⟩) =
        some 0 := by
  decide +kernel

end Reentrancy
