import Reentrancy.Proofs.Flow.TopLoops
import Reentrancy.Proofs.Ssa.Rejoining

/-! Phis for what a loop carries. A name that a round defines and that the test reads, or that the
body counts, is joined once in the header: the version from before the loop, and the last one of
the round. -/
namespace Reentrancy

def Block.shell (block : Block) : Block := { block with versions := {}, instructions := [] }

theorem Block.eq_of_shell {one two : Block} (same : one.shell = two.shell) :
    one.role = two.role ∧ one.statements = two.statements ∧ one.accesses = two.accesses := by
  obtain ⟨_, statements, _, role, _, accesses, _⟩ := Block.mk.inj same
  exact ⟨role, statements, accesses⟩

section Shells

theorem shells_numberFrom (graph : Graph) (scope : Scope) (exits : List (Table Nat))
    (versions : Versions) (blocks : List Block) :
    (numberFrom graph scope exits versions blocks).blocks.map Block.shell =
      blocks.map Block.shell := by
  induction blocks generalizing exits versions with
  | nil => rfl
  | cons block rest ih => exact congrArg (block.shell :: ·) (ih _ _)

theorem shells_joinFrom (blocks : List Block) (graph : Graph) (exits : List (Table Nat))
    (index : Nat) (versions : Versions) (rest : List Block) :
    (joinFrom blocks graph exits index versions rest).blocks.map Block.shell =
      rest.map Block.shell := by
  induction rest generalizing index versions with
  | nil => rfl
  | cons block others ih => exact congrArg (block.shell :: ·) (ih _ _)

theorem Body.shells_build (scope : Scope) (statements : List Statement) :
    (build scope statements).blocks.map Block.shell =
      (flowBlocks statements).1.map Block.shell :=
  (shells_joinFrom ..).trans (shells_numberFrom ..)

theorem getElem?_of_shells {blocks others : List Block}
    (same : blocks.map Block.shell = others.map Block.shell) {index : Nat} {block : Block}
    (located : blocks[index]? = some block) :
    ∃ other, others[index]? = some other ∧ other.shell = block.shell := by
  have found := congrArg (·[index]?) same
  simp only [List.getElem?_map, located, Option.map_some] at found
  exact Option.map_eq_some_iff.mp found.symm

end Shells

section Slices

theorem plainDefs_joinFrom (blocks : List Block) (graph : Graph) (exits : List (Table Nat))
    (index : Nat) (versions : Versions) {rest : List Block}
    (noPhi : ∀ instruction ∈ instructionsOf rest, instruction.isPhi = false) :
    (joinFrom blocks graph exits index versions rest).blocks.map
        (fun block => plainDefs block.instructions) =
      rest.map fun block => block.instructions.flatMap Instruction.defs := by
  induction rest generalizing index versions with
  | nil => rfl
  | cons block others ih =>
    rw [instructionsOf, List.flatMap_cons, List.forall_mem_append] at noPhi
    rw [joinFrom_cons, List.map_cons, List.map_cons, Block.plainDefs_joinWith noPhi.1,
      ih _ _ noPhi.2]

theorem plainDefs_instructionsOf (blocks : List Block) :
    plainDefs (instructionsOf blocks) =
      (blocks.map fun block => plainDefs block.instructions).flatten := by
  induction blocks with
  | nil => rfl
  | cons block rest ih =>
    rw [instructionsOf, List.flatMap_cons, plainDefs_append, List.map_cons, List.flatten_cons, ← ih]
    rfl

theorem Body.plainDefs_build (scope : Scope) (statements : List Statement) (first last : Nat) :
    plainDefs (instructionsOf (((build scope statements).blocks.take last).drop first)) =
      defsOf (((numberBody scope statements).blocks.take last).drop first) := by
  have blockwise : (build scope statements).blocks.map (fun block => plainDefs block.instructions) =
      (numberBody scope statements).blocks.map fun block =>
        block.instructions.flatMap Instruction.defs :=
    plainDefs_joinFrom _ _ _ 0 _ (numberBlocks_extends scope {} (flowBlocks statements).1).noPhi
  rw [plainDefs_instructionsOf, List.map_drop, List.map_take, blockwise, ← List.map_take,
    ← List.map_drop, defsOf, instructionsOf, List.flatMap_assoc]
  rfl

end Slices

def Instruction.joins (name : String) : Instruction → Bool
  | phi target _ => target.name == name
  | _ => false

theorem filter_joins {phis : List Phi} (distinct : (phis.map fun phi => phi.target.name).Nodup)
    {phi : Phi} (member : phi ∈ phis) {rest : List Instruction}
    (noPhi : ∀ instruction ∈ rest, instruction.isPhi = false) :
    (phis.map Phi.instruction ++ rest).filter (Instruction.joins phi.target.name) =
      [phi.instruction] := by
  have single : phis.filter (fun other => other.target.name == phi.target.name) = [phi] := by
    apply List.perm_singleton.mp
    rw [List.perm_ext_iff_of_nodup (distinct.of_map.filter _) (List.nodup_singleton phi)]
    intro other
    rw [List.mem_filter, List.mem_singleton, beq_iff_eq]
    constructor
    · rintro ⟨inside, same⟩
      exact List.inj_on_of_nodup_map distinct inside member same
    · rintro rfl
      exact ⟨member, rfl⟩
  have quiet : rest.filter (Instruction.joins phi.target.name) = [] := by
    rw [List.filter_eq_nil_iff]
    intro instruction inside joins
    cases instruction with
    | phi => cases noPhi _ inside
    | _ => cases joins
  rw [List.filter_append, quiet, List.append_nil, List.filter_map]
  exact congrArg (List.map Phi.instruction) single

/-- A loop among blocks: the block before it, its header, and the blocks of a round, the last of
which goes back. -/
structure LoopAt (blocks : List Block) (loop : Statement) (bodies : List (List Statement))
    (before last : Nat) (init header tail : Block) : Prop where
  starts : blocks[before]? = some init
  marked : init.role = some .init
  headed : blocks[before + 1]? = some header
  role : header.role = some .header
  holds : header.statements = [loop]
  round : ((blocks.take (last + 1)).drop (before + 2)).map (·.statements) = bodies
  ends : blocks[last]? = some tail
  back : tail.exit = .goto header.id

section Header

variable {scope : Scope} {statements : List Statement}

theorem header_phi {before last : Nat} {init header new tail : Block} {exit : Table Nat}
    (rounds : Rounds (outlinesOf (numberBody scope statements).blocks) last (before + 1))
    (first : (numberBody scope statements).blocks[before]? = some init)
    (headed : (numberBody scope statements).blocks[before + 1]? = some header)
    (ended : (numberBody scope statements).blocks[last]? = some tail)
    (left : (numberBody scope statements).exits[before]? = some exit)
    (built : (Body.build scope statements).blocks[before + 1]? = some new) {name : String}
    (reads : header.accesses.reads.contains name = true)
    (defined : name ∈ (defsOf (((numberBody scope statements).blocks.take (last + 1)).drop
      (before + 2))).map Variable.name) :
    ∃ version latest, (versionsOf name (defsOf (((numberBody scope statements).blocks.take
        (last + 1)).drop (before + 2)))).getLast? = some latest ∧
      new.instructions.filter (Instruction.joins name) = [.phi ⟨name, version⟩
        [(init.id, ⟨name, exit.version name⟩), (tail.id, ⟨name, latest⟩)]] := by
  have closed := numberBody_closed scope statements
  have laid := numberBody_laid scope statements
  have apart := numberBody_apart scope statements
  have once := numberBlocks_once scope (flowBlocks statements).1
  have signed := numberBlocks_signed scope (flowBlocks statements).1
  obtain ⟨_, recorded⟩ := numberBlocks_recorded scope (flowBlocks statements).1
  obtain ⟨phis, _, placed, names, sources⟩ :=
    insertPhis_renames scope (flowBlocks statements).1 headed built
  have joined := (mem_phiNames_header closed laid signed once rounds first headed).mpr
    (.inr ⟨.inr defined, reads⟩)
  have distinct := phiNames_nodup (numberBody scope statements).blocks
    (graphOf (numberBody scope statements).blocks) (before + 1) header
  rw [← names] at joined distinct
  obtain ⟨phi, member, rfl⟩ := List.mem_map.mp joined
  obtain ⟨_, other, closing, same, found, _, endAt, edges⟩ := incoming_header closed laid rounds
  obtain rfl := Nat.succ.inj same
  obtain rfl := Option.some.inj (first.symm.trans found)
  obtain rfl := Option.some.inj (ended.symm.trans endAt)
  -- What each of the two edges brings in is current at its source.
  obtain ⟨early, leftEarly, fromInit⟩ := recorded.source_version apart
    (edges ▸ List.mem_cons_self) phi.target.name
  obtain rfl := Option.some.inj (left.symm.trans leftEarly)
  obtain ⟨late, leftLate, fromTail⟩ := recorded.source_version apart
    (edges ▸ List.mem_cons_of_mem _ (List.mem_singleton_self _)) phi.target.name
  have latest := numberBlocks_last (before + 2) ended (tail_whole rounds ended) leftLate defined
  refine ⟨phi.target.version, late.version phi.target.name, latest, ?_⟩
  have noPhi : ∀ instruction ∈ header.instructions.map (Instruction.substitute fun read =>
      some (.var (Phi.renamed phis read))), instruction.isPhi = false := by
    intro instruction inside
    obtain ⟨old, listed, rfl⟩ := List.mem_map.mp inside
    rw [Instruction.isPhi_substitute]
    exact (numberBlocks_extends scope {} (flowBlocks statements).1).noPhi old
      (List.mem_flatMap.mpr ⟨header, List.mem_of_getElem? headed, listed⟩)
  rw [placed, filter_joins distinct member noPhi, Phi.instruction, sources phi member, edges]
  rw [← fromInit, ← fromTail]
  rfl

end Header

/-- Each loop of a body that can go round has its header, and there one phi for every name that the
round defines and that the test reads or the body counts. The phi joins what the block before the
loop leaves with the last definition in the round. -/
theorem build_headerPhis (scope : Scope) (statements : List Statement) :
    let built := (Body.build scope statements).blocks
    let exits := (numberBlocks scope {} (flowBlocks statements).1).exits
    ∀ front loop rest condition counters bodies, statements = front ++ loop :: rest →
      Statement.Circles loop condition counters bodies →
        ∃ before last init header tail exit,
          LoopAt built loop bodies before last init header tail ∧
          ((built.take (before + 1)).filter Block.isHeader).length =
            (front.filter (·.kind.isLoop)).length ∧
          exits[before]? = some exit ∧
          let defined := plainDefs (instructionsOf ((built.take (last + 1)).drop (before + 2)))
          ∀ name, name ≠ "" → name ∈ defined.map Variable.name →
            .read name ∈ condition.accesses .value ∨ name ∈ counters →
              ∃ version latest, (versionsOf name defined).getLast? = some latest ∧
                header.instructions.filter (Instruction.joins name) = [.phi ⟨name, version⟩
                  [(init.id, ⟨name, exit.version name⟩), (tail.id, ⟨name, latest⟩)]] := by
  intro built exits front loop rest condition counters bodies split circles
  obtain ⟨index, raw, rawAt, role, holds, count⟩ := exists_header split circles.isLoop
  obtain ⟨rounds, inner, reads⟩ := flowBlocks_heads rawAt role holds circles
  have outlines : outlinesOf (numberBody scope statements).blocks =
      outlinesOf (flowBlocks statements).1 := outlinesOf_numberFrom ..
  rw [← outlines] at rounds
  obtain ⟨before, init, tail, rfl, first, marked, ended, _⟩ := incoming_header
    (numberBody_closed scope statements) (numberBody_laid scope statements) rounds
  have shells : (numberBody scope statements).blocks.map Block.shell =
      (flowBlocks statements).1.map Block.shell := shells_numberFrom ..
  obtain ⟨header, headed, same⟩ := getElem?_of_shells shells.symm rawAt
  obtain ⟨roles, texts, accesses⟩ := Block.eq_of_shell same
  have builtAt {place : Nat} {block : Block}
      (found : (numberBody scope statements).blocks[place]? = some block) :
      ∃ phis, built[place]? = some (block.joinWith phis) := joinFrom_at _ _ _ 0 _ found
  obtain ⟨initPhis, initAt⟩ := builtAt first
  obtain ⟨phis, newAt⟩ := builtAt headed
  obtain ⟨tailPhis, tailAt⟩ := builtAt ended
  obtain ⟨_, recorded⟩ := numberBlocks_recorded scope (flowBlocks statements).1
  obtain ⟨exit, left, _⟩ := recorded.written_at first
  have leads : tail.exit = .goto header.id := by
    obtain @⟨_, _, headedAt, _, _, endedAt, jump, _⟩ := rounds
    obtain rfl := Option.some.inj (headedAt.symm.trans (getElem?_outlinesOf headed))
    obtain rfl := Option.some.inj (endedAt.symm.trans (getElem?_outlinesOf ended))
    exact jump
  refine ⟨before, before + 1 + bodies.length, init.joinWith initPhis, header.joinWith phis,
    tail.joinWith tailPhis, exit, ⟨initAt, marked, newAt, ?_, ?_, ?_, tailAt, leads⟩, ?_, left, ?_⟩
  · rw [Block.joinWith, roles]
    simpa [Block.isHeader] using role
  · exact texts.trans holds
  · have bodiesOf : built.map (·.statements) = (flowBlocks statements).1.map (·.statements) := by
      simpa [Function.comp_def, Block.shell] using
        congrArg (List.map (·.statements)) (Body.shells_build scope statements)
    have length : before + 1 + bodies.length + 1 - (before + 2) = bodies.length := by omega
    rw [List.drop_take, length, List.map_take, List.map_drop, bodiesOf, ← List.map_drop,
      ← List.map_take]
    exact inner
  · have headers (blocks : List Block) : (blocks.filter Block.isHeader).length =
        ((blocks.map Block.shell).filter Block.isHeader).length := by
      rw [List.filter_map, List.length_map]
      rfl
    rw [headers, List.map_take, Body.shells_build, ← List.map_take, ← headers]
    exact count
  · intro defined name filled member read
    have same : defined = defsOf (((numberBody scope statements).blocks.take
        (before + 1 + bodies.length + 1)).drop (before + 2)) := Body.plainDefs_build ..
    rw [same] at member ⊢
    exact header_phi rounds first headed ended left newAt (accesses ▸ reads name filled read) member

open Snippet in
/-- In `while (c) { x++; }` the body counts `x`, which the test does not read. -/
theorem counted_name_joined :
    let steps : Statement := .expression (.unary "++" false (named "x"))
    let loop := Statement.whileLoop (named "c") [steps] ["x"]
    let built := (Body.build {} [loop]).blocks
    loop.Circles (named "c") ["x"] [[steps]] ∧
      ∃ init header tail exit version latest, LoopAt built loop [[steps]] 0 2 init header tail ∧
        (numberBlocks {} {} (flowBlocks [loop]).1).exits[0]? = some exit ∧
        "x" ∈ (plainDefs (instructionsOf ((built.take 3).drop 2))).map Variable.name ∧
        header.instructions.filter (Instruction.joins "x") = [.phi ⟨"x", version⟩
          [(init.id, ⟨"x", exit.version "x"⟩), (tail.id, ⟨"x", latest⟩)]] := by
  intro steps loop built
  have circles : loop.Circles (named "c") ["x"] [[steps]] := by
    refine .whileLoop (named "c") ["x"] fun last found => ?_
    obtain rfl := Option.some.inj found
    exact ⟨by decide, rfl⟩
  obtain ⟨before, last, init, header, tail, exit, loopAt, _, left, phis⟩ :=
    build_headerPhis {} [loop] [] loop [] (named "c") ["x"] [[steps]] rfl circles
  have length : built.length = 4 := by decide +kernel
  have bound : before + 1 < 4 := length ▸ (List.getElem?_eq_some_iff.mp loopAt.headed).1
  have only : ∀ place < 4, (built[place + 1]?).any Block.isHeader = true → place = 0 := by
    decide +kernel
  obtain rfl : before = 0 := by
    refine only before (by omega) ?_
    rw [loopAt.headed]
    simp [Block.isHeader, loopAt.role]
  obtain rfl : last = 2 := by
    have size := congrArg List.length loopAt.round
    have ends := length ▸ (List.getElem?_eq_some_iff.mp loopAt.ends).1
    rw [List.length_map, List.length_drop, List.length_take, length] at size
    simp only [List.length_singleton] at size
    omega
  have defined : "x" ∈ (plainDefs (instructionsOf ((built.take 3).drop 2))).map Variable.name := by
    decide +kernel
  obtain ⟨version, latest, _, joined⟩ :=
    phis "x" (by decide) defined (.inr (List.mem_singleton_self "x"))
  exact ⟨circles, init, header, tail, exit, version, latest, loopAt, left, defined, joined⟩

end Reentrancy
