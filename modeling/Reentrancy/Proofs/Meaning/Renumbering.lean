import Reentrancy.Proofs.Inline.Trace
import Reentrancy.Proofs.Meaning.Lowering

/-! Scalar code numbered anew. Another numbering reads the current version of a name right, but
not always an older one: where the value of a name comes from elsewhere and the code then defines
the name, the value from elsewhere cannot be read any more. A ledger says which versions are lost
in this way. Code that reads none of them computes under the new numbering what it computed under
the old one. -/
namespace Reentrancy

structure Ledger where
  current : Table Nat := Table.empty
  /-- Whether the current value of a name comes from elsewhere. -/
  foreign : String → Bool
  lost : List Variable := []

namespace Ledger

def define (ledger : Ledger) (defined : Variable) : Ledger where
  current := ledger.current.insert defined.name defined.version
  foreign name := ledger.foreign name && name != defined.name
  lost :=
    if ledger.foreign defined.name then
      ⟨defined.name, ledger.current.version defined.name⟩ :: ledger.lost
    else ledger.lost

/-- The names are written from elsewhere. -/
def shadow (ledger : Ledger) (names : List String) : Ledger :=
  { ledger with foreign := fun name => ledger.foreign name || names.contains name }

section Passing

variable (put : Instruction → List String)

/-- One instruction; `put` says which names are written from elsewhere after it. -/
def pass (ledger : Ledger) (instruction : Instruction) : Ledger :=
  (instruction.defs.foldl define ledger).shadow (put instruction)

def readsKept (ledger : Ledger) : List Instruction → Bool
  | [] => true
  | first :: rest =>
    first.uses.all (fun read => !ledger.lost.contains read) &&
      (ledger.pass put first).readsKept rest

variable {put} in
theorem readsKept_cons {ledger : Ledger} {first : Instruction} {rest : List Instruction} :
    ledger.readsKept put (first :: rest) = true ↔ (∀ read ∈ first.uses, read ∉ ledger.lost) ∧
      (ledger.pass put first).readsKept put rest = true := by
  simp [readsKept]

theorem readsKept_append (ledger : Ledger) (first second : List Instruction) :
    ledger.readsKept put (first ++ second) =
      (ledger.readsKept put first && (first.foldl (pass put) ledger).readsKept put second) := by
  induction first generalizing ledger with
  | nil => rfl
  | cons head rest ih =>
    simp only [List.cons_append, readsKept, ih, List.foldl_cons, Bool.and_assoc]

theorem pass_assign {put} (ledger : Ledger) {assignment : Assignment}
    (single : assignment.implied = []) (quiet : put (.assign assignment) = []) :
    ledger.pass put (.assign assignment) = ledger.define assignment.target := by
  simp [pass, Instruction.defs, single, quiet, shadow]

theorem pass_expression {put} (ledger : Ledger) {value : Value}
    (quiet : put (.expression value) = []) : ledger.pass put (.expression value) = ledger := by
  simp [pass, Instruction.defs, quiet, shadow]

end Passing

structure Fits (ledger : Ledger) (old : Versions) : Prop where
  level : ∀ name, old.current.version name = old.counter.version name
  current : ∀ name, ledger.current.version name = old.current.version name
  passed : ∀ read ∈ ledger.lost, read.version < old.current.version read.name

variable {ledger : Ledger} {old : Versions}

theorem mem_lost_define {read defined : Variable} :
    read ∈ (ledger.define defined).lost ↔ read ∈ ledger.lost ∨
      ledger.foreign defined.name = true ∧
        read = ⟨defined.name, ledger.current.version defined.name⟩ := by
  unfold define
  cases ledger.foreign defined.name <;> simp [or_comm]

theorem Fits.start (current : ∀ name, old.current.version name = 0)
    (counter : ∀ name, old.counter.version name = 0) (foreign : String → Bool) :
    Ledger.Fits { foreign } old :=
  ⟨fun name => (current name).trans (counter name).symm, fun name => (current name).symm, by simp⟩

theorem Fits.recount (fits : ledger.Fits old) (calls : Nat) : ledger.Fits { old with calls } :=
  ⟨fits.level, fits.current, fits.passed⟩

theorem Fits.shadow (fits : ledger.Fits old) (names : List String) :
    (ledger.shadow names).Fits old :=
  ⟨fits.level, fits.current, fits.passed⟩

theorem Fits.define (fits : ledger.Fits old) (name : String) :
    (ledger.define (old.define name).1).Fits (old.define name).2 := by
  have defined : (old.define name).1 = ⟨name, old.counter.version name + 1⟩ := rfl
  refine ⟨?_, ?_, ?_⟩
  · intro other
    rw [Versions.current_define, Versions.counter_define, fits.level]
  · intro other
    rw [Versions.current_define, Ledger.define, Table.version_insert, fits.current, defined]
  · intro read member
    rw [Versions.current_define]
    rcases mem_lost_define.mp member with before | ⟨_, rfl⟩
    · have passed := fits.passed read before
      have level := fits.level read.name
      split
      next same =>
        rw [same] at passed level
        omega
      next => exact passed
    · have level := fits.level name
      have current := fits.current name
      rw [defined, if_pos rfl]
      dsimp only
      omega

theorem Fits.define_ne (fits : ledger.Fits old) (name : String) {read : Variable}
    (counted : read.version ≤ old.current.version read.name) : (old.define name).1 ≠ read := by
  rintro rfl
  have level := fits.level name
  simp only [Versions.name_define, Versions.version_define] at counted
  omega

theorem Fits.counted_before (fits : ledger.Fits old) {name : String} {read : Variable}
    (counted : read.version ≤ (old.define name).2.current.version read.name)
    (other : read ≠ (old.define name).1) : read.version ≤ old.current.version read.name := by
  rw [Versions.current_define] at counted
  split at counted
  next same =>
    have level := fits.level name
    have version : read.version ≠ old.counter.version name + 1 := by
      intro equal
      apply other
      change read = ⟨name, old.counter.version name + 1⟩
      rw [← equal, ← same]
    rw [same]
    omega
  next => exact counted

end Ledger

/-- A way to number code anew, step by step. `Tracks` is what its states have to do with the old
numbering. -/
structure Renumbering (σ : Type) where
  versions : σ → Versions
  resolve : σ → Variable → Variable
  redefine : σ → Variable → Variable × σ
  Tracks : Versions → Ledger → σ → Prop
  fits : ∀ {old ledger state}, Tracks old ledger state → ledger.Fits old
  defined : ∀ state old, (redefine state old).1 = ((versions state).define old.name).1
  /-- Current versions go to current versions. -/
  resolve_read : ∀ {old ledger state}, Tracks old ledger state → ∀ name,
    resolve state (old.read name) = (versions state).read name
  counted : ∀ {old ledger state}, Tracks old ledger state → ∀ read,
    read.version ≤ old.current.version read.name → (resolve state read).name = read.name ∧
      (resolve state read).version ≤ (versions state).counter.version read.name
  advance : ∀ {old ledger state}, Tracks old ledger state → ∀ name,
    Tracks (old.define name).2 (ledger.define (old.define name).1)
      (redefine state (old.define name).1).2
  resolve_defined : ∀ {old ledger state}, Tracks old ledger state → ∀ name,
    resolve (redefine state (old.define name).1).2 (old.define name).1 =
      (redefine state (old.define name).1).1
  /-- A new definition leaves every older version where it was, unless it is lost now. -/
  resolve_kept : ∀ {old ledger state}, Tracks old ledger state → ∀ name read,
    read.version ≤ old.current.version read.name →
    read ∉ (ledger.define (old.define name).1).lost →
    resolve (redefine state (old.define name).1).2 read = resolve state read

section Values

variable {D : Type} (meaning : Meaning D) (rename : Variable → Variable) {env model : Env D}

theorem Value.eval_renamed : ∀ {value : Value},
    (∀ read ∈ value.reads, env (rename read) = model read) →
    (value.substitute fun read => some (.var (rename read))).eval meaning env =
      value.eval meaning model
  | .var read, same => congrArg some (same read (by simp [reads]))
  | .literal _, _ => rfl
  | .binary operator left right, same => by
    rw [reads, List.forall_mem_append] at same
    rw [substitute, eval, eval, eval_renamed same.1, eval_renamed same.2]
  | .unary operator operand, same => by
    rw [reads] at same
    rw [substitute, eval, eval, eval_renamed same]
  | .apply .., _ | .tuple .., _ | .choice .., _ | .raw .., _ => rfl

theorem Assignment.result_renamed {assignment : Assignment}
    (same : ∀ read ∈ (Instruction.assign assignment).uses, env (rename read) = model read) :
    (assignment.substitute fun read => some (.var (rename read))).result meaning env =
      assignment.result meaning model := by
  rw [Instruction.uses, List.forall_mem_append] at same
  have value := Value.eval_renamed meaning rename same.2
  unfold result
  cases previous : assignment.previous with
  | none => simp [substitute, previous, value]
  | some read =>
    have before : env (rename read) = model read := same.1 read (by simp [previous])
    cases operator : assignment.operator with
    | none => simp [substitute, previous, operator, value]
    | some text => simp [substitute, substitutePrevious, previous, operator, value, before]

end Values

namespace Renumbering

variable {σ D : Type} (numbering : Renumbering σ) (meaning : Meaning D)

def rewrite (state : σ) (instruction : Instruction) : Instruction × σ :=
  (instruction.substitute fun read => some (.var (numbering.resolve state read))).redefine
    numbering.redefine state

theorem names_rewrite (state : σ) (instruction : Instruction) :
    (numbering.rewrite state instruction).1.defs.map Variable.name =
      instruction.defs.map Variable.name := by
  rw [rewrite, (Instruction.redefine_eq numbering.redefine state _).1,
    Instruction.defs_substitute]
  apply mapDefinitions_names
  intro state old
  rw [numbering.defined]
  rfl

theorem rewrite_assign (state : σ) {assignment : Assignment} (single : assignment.implied = []) :
    numbering.rewrite state (.assign assignment) =
      (.assign { assignment.substitute fun read => some (.var (numbering.resolve state read)) with
          target := (numbering.redefine state assignment.target).1
          implied := [] },
        (numbering.redefine state assignment.target).2) := by
  simp [rewrite, Instruction.substitute, Instruction.redefine, Assignment.substitute, single,
    mapDefinitions]

/-- What the old numbering can still read in `model`, the new one reads in `env`. -/
structure Mirrors (old : Versions) (ledger : Ledger) (state : σ) (env model : Env D) : Prop where
  tracks : numbering.Tracks old ledger state
  holds : ∀ read, read.version ≤ old.current.version read.name → read ∉ ledger.lost →
    env (numbering.resolve state read) = model read

namespace Mirrors

variable {numbering meaning} {old : Versions} {ledger : Ledger} {state : σ} {env model : Env D}

theorem start (tracks : numbering.Tracks old ledger state) (env : Env D) :
    numbering.Mirrors old ledger state env fun read => env (numbering.resolve state read) :=
  ⟨tracks, fun _ _ _ => rfl⟩

theorem current (mirrors : numbering.Mirrors old ledger state env model) (name : String) :
    env ((numbering.versions state).read name) = model (old.read name) := by
  have fits := numbering.fits mirrors.tracks
  have kept : old.read name ∉ ledger.lost := fun lost => Nat.lt_irrefl _ (fits.passed _ lost)
  rw [← numbering.resolve_read mirrors.tracks name]
  exact mirrors.holds (old.read name) (Nat.le_refl _) kept

theorem define (mirrors : numbering.Mirrors old ledger state env model) (name : String)
    (value : D) :
    numbering.Mirrors (old.define name).2 (ledger.define (old.define name).1)
      (numbering.redefine state (old.define name).1).2
      (Function.update env (numbering.redefine state (old.define name).1).1 value)
      (Function.update model (old.define name).1 value) := by
  refine ⟨numbering.advance mirrors.tracks name, fun read counted kept => ?_⟩
  by_cases new : read = (old.define name).1
  · rw [new, numbering.resolve_defined mirrors.tracks name, Function.update_self,
      Function.update_self]
  · have before := (numbering.fits mirrors.tracks).counted_before counted new
    obtain ⟨named, below⟩ := numbering.counted mirrors.tracks read before
    -- What was counted before is no new version.
    have apart : numbering.resolve state read ≠
        (numbering.redefine state (old.define name).1).1 := by
      intro equal
      rw [numbering.defined] at equal
      have names := congrArg Variable.name equal
      have numbers := congrArg Variable.version equal
      simp only [Versions.name_define, Versions.version_define] at names numbers
      rw [named] at names
      rw [names] at below
      omega
    have old_kept : read ∉ ledger.lost := fun lost => kept (Ledger.mem_lost_define.mpr (.inl lost))
    rw [numbering.resolve_kept mirrors.tracks name read before kept, Function.update_of_ne apart,
      Function.update_of_ne new]
    exact mirrors.holds read before old_kept

theorem assign (mirrors : numbering.Mirrors old ledger state env model) {name : String}
    {assignment : Assignment} (target : assignment.target = (old.define name).1)
    (single : assignment.implied = [])
    (reads : ∀ read ∈ (Instruction.assign assignment).uses,
      read.version ≤ old.current.version read.name ∧ read ∉ ledger.lost)
    {after : Env D} (ran : (Instruction.assign assignment).run meaning model = some after) :
    ∃ last, (numbering.rewrite state (.assign assignment)).1.run meaning env = some last ∧
      numbering.Mirrors (old.define name).2 (ledger.define (old.define name).1)
        (numbering.rewrite state (.assign assignment)).2 last after := by
  have computed := Assignment.result_renamed meaning (numbering.resolve state) fun read member =>
    mirrors.holds read (reads read member).1 (reads read member).2
  simp only [Instruction.run, single, List.isEmpty_nil, if_true, Option.map_eq_some_iff] at ran
  obtain ⟨value, result, rfl⟩ := ran
  have next := mirrors.define name value
  rw [← target] at next ⊢
  rw [numbering.rewrite_assign state single]
  refine ⟨_, ?_, next⟩
  have same : ({ assignment.substitute fun read => some (.var (numbering.resolve state read)) with
      target := (numbering.redefine state assignment.target).1
      implied := [] } : Assignment).result meaning env = some value := computed.trans result
  simp only [Instruction.run, List.isEmpty_nil, if_true, same, Option.map_some]

theorem expression (mirrors : numbering.Mirrors old ledger state env model) {value : Value}
    (reads : ∀ read ∈ value.reads,
      read.version ≤ old.current.version read.name ∧ read ∉ ledger.lost)
    {after : Env D} (ran : (Instruction.expression value).run meaning model = some after) :
    (numbering.rewrite state (.expression value)).1.run meaning env = some env ∧ after = model := by
  have computed := Value.eval_renamed meaning (numbering.resolve state) fun read member =>
    mirrors.holds read (reads read member).1 (reads read member).2
  simp only [Instruction.run, Option.map_eq_some_iff] at ran
  obtain ⟨result, evaluated, rfl⟩ := ran
  have same : (value.substitute fun read => some (.var (numbering.resolve state read))).eval meaning
      env = some result := computed.trans evaluated
  refine ⟨?_, rfl⟩
  simp only [rewrite, Instruction.substitute, Instruction.redefine, Instruction.run, same,
    Option.map_some]

end Mirrors
end Renumbering

/-- Scalar code as lowering numbers it from `old` on: its operands are counted, and every
assignment defines the next version of one name. -/
inductive Code : Versions → List Instruction → Versions → Prop where
  | nil (old : Versions) : Code old [] old
  | assign (old : Versions) (name : String) {assignment : Assignment} {rest : List Instruction}
      {last : Versions} (target : assignment.target = (old.define name).1)
      (single : assignment.implied = [])
      (counted : ∀ read ∈ (Instruction.assign assignment).uses,
        read.version ≤ old.counter.version read.name)
      (later : Code (old.define name).2 rest last) : Code old (.assign assignment :: rest) last
  | expression (old : Versions) {value : Value} {rest : List Instruction} {last : Versions}
      (counted : ∀ read ∈ value.reads, read.version ≤ old.counter.version read.name)
      (later : Code old rest last) : Code old (.expression value :: rest) last

theorem Renumbering.Mirrors.step {σ D : Type} {numbering : Renumbering σ} {meaning : Meaning D}
    {put : Instruction → List String}
    (quiet : ∀ instruction, instruction.isScalar = true → put instruction = [])
    {old new : Versions} {first : Instruction} {rest : List Instruction}
    (code : Code old (first :: rest) new) {ledger : Ledger} {state : σ} {env model after : Env D}
    (mirrors : numbering.Mirrors old ledger state env model)
    (kept : ledger.readsKept put (first :: rest) = true)
    (ran : Instruction.runAll meaning (first :: rest) model = some after) :
    let written := numbering.rewrite state first
    ∃ middle next between, Code middle rest new ∧ written.1.run meaning env = some next ∧
      written.1.internalTarget? = none ∧ Instruction.runAll meaning rest between = some after ∧
      (ledger.pass put first).readsKept put rest = true ∧
      numbering.Mirrors middle (ledger.pass put first) written.2 next between := by
  have level := (numbering.fits mirrors.tracks).level
  obtain ⟨reads, later⟩ := Ledger.readsKept_cons.mp kept
  obtain ⟨between, here, there⟩ := Option.bind_eq_some_iff.mp ran
  cases code with
  | assign _ name target single counted others =>
    have passed := ledger.pass_assign single (quiet _ (by simp [Instruction.isScalar, single]))
    obtain ⟨next, run, mirrored⟩ := mirrors.assign target single
      (fun read member => ⟨level read.name ▸ counted read member, reads read member⟩) here
    rw [← target, ← passed] at mirrored
    refine ⟨_, next, between, others, run, ?_, there, later, mirrored⟩
    rw [numbering.rewrite_assign state single]
    rfl
  | expression _ counted others =>
    obtain ⟨run, rfl⟩ := mirrors.expression
      (fun read member => ⟨level read.name ▸ counted read member, reads read member⟩) here
    refine ⟨old, env, between, others, run, rfl, there, later, ?_⟩
    rw [ledger.pass_expression (quiet _ rfl)]
    exact mirrors

namespace Lower

structure Stage.Counted (stage : Stage) : Prop where
  bounded : stage.versions.Bounded
  operands : ∀ read ∈ stage.operands, read.version ≤ stage.versions.counter.version read.name

theorem Stage.Counted.define {stage : Stage} (counted : stage.Counted) (name : String) :
    Stage.Counted ⟨(stage.versions.define name).2,
      (stage.versions.define name).1 :: stage.operands⟩ := by
  have advances := Versions.Advances.define stage.versions name
  refine ⟨advances.bounded counted.bounded, ?_⟩
  intro read member
  rcases List.mem_cons.mp member with rfl | before
  · rw [Versions.counter_define]
    exact Nat.le_of_eq (if_pos rfl).symm
  · exact Nat.le_trans (counted.operands read before) (advances.counter read.name)

theorem Run.code {first second : Stage} {emission : Emission} (run : Run first emission second)
    (counted : first.Counted)
    (scalar : ∀ instruction ∈ emission.instructions, instruction.isScalar = true) :
    Code first.versions emission.instructions second.versions := by
  induction run with
  | nil stage => exact .nil stage.versions
  | cons step rest ih =>
    rw [Emission.append, List.forall_mem_append] at scalar
    cases step with
    | read name =>
      refine ih ⟨counted.bounded, ?_⟩ scalar.2
      intro read member
      rcases List.mem_cons.mp member with rfl | before
      · exact counted.bounded name
      · exact counted.operands read before
    | plain instruction definesNothing atHand =>
      have later := ih counted scalar.2
      have only := scalar.1 instruction List.mem_cons_self
      cases instruction with
      | expression value =>
        exact .expression _ (fun read member => counted.operands read (atHand member)) later
      | assign assignment => cases definesNothing
      | _ => cases only
    | assign names assignment defined atHand =>
      have only := scalar.1 _ List.mem_cons_self
      have single : assignment.implied = [] := List.isEmpty_iff.mp only
      -- One variable is defined, so there is one name.
      cases names with
      | nil => cases defined
      | cons name others =>
        obtain ⟨target, rest⟩ := List.cons.inj (defineAll_cons name others _ ▸ defined)
        cases others with
        | nil =>
          rw [defineAll_cons, target] at ih
          exact .assign _ name target single
            (fun read member => counted.operands read (atHand member))
            (ih (counted.define name) scalar.2)
        | cons next others =>
          rw [defineAll_cons, single] at rest
          cases rest
    | call operation _ _ => cases scalar.1 _ List.mem_cons_self

end Lower
end Reentrancy
