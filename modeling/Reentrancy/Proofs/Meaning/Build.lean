import Reentrancy.Proofs.Meaning.Lowering
import Reentrancy.Proofs.Ssa.Straight
import Reentrancy.Proofs.Ssa.Validity

/-! A straight-line function of scalar statements, built and finished, computes what its source
computes. -/
namespace Reentrancy

variable {D : Type} (meaning : Meaning D)

theorem Statement.plain_of_isScalar {statement : Statement} (scalar : statement.isScalar = true) :
    statement.kind.isStructured = false ∧ statement.kind ≠ .ret ∧ statement.isRevert = false := by
  cases statement with
  | expression value =>
    cases value with
    | call => cases scalar
    | _ => exact ⟨rfl, by simp [Statement.kind], rfl⟩
  | declare targets value => exact ⟨rfl, by simp [Statement.kind], rfl⟩
  | _ => cases scalar

section Straight

variable (scope : Scope) {statements : List Statement}
  (plain : ∀ statement ∈ statements, statement.kind.isStructured = false)

include plain

theorem Body.build_chain
    (stay : ∀ statement ∈ statements, statement.kind ≠ .ret ∧ statement.isRevert = false) :
    (graphOf (build scope statements).blocks).Chain := by
  have graph : graphOf (build scope statements).blocks = graphOf (flowBlocks statements).1 :=
    (graphOf_joinFrom ..).trans (graphOf_numberFrom ..)
  rw [graph]
  exact flowBlocks_chain plain stay

end Straight

/-- Executing a built and finished function ends with the current version of every name holding
what the source leaves in the name; version 0 of a name is its initial value. -/
theorem build_keeps_meaning (scope : Scope) {statements : List Statement}
    (scalar : ∀ statement ∈ statements, statement.isScalar = true) (env : Env D) :
    let body := Body.build scope statements
    ∃ last, execute meaning body.finish.1 env = some last ∧
      ∀ name, last ⟨name, body.versions.current.version name⟩ =
        Statement.execAll meaning statements (fun name => env ⟨name, 0⟩) name := by
  intro body
  have plain : ∀ statement ∈ statements, statement.kind.isStructured = false :=
    fun statement member => (Statement.plain_of_isScalar (scalar statement member)).1
  have chain := Body.build_chain scope plain fun statement member =>
    (Statement.plain_of_isScalar (scalar statement member)).2
  have sound := Body.build_sound scope statements
  obtain ⟨seeded, current, counter, _, instructions, versions⟩ := build_straight scope plain
  have bounded : seeded.Bounded := by
    intro name
    rw [current]
    exact Nat.zero_le _
  have agrees : Agrees env seeded fun name => env ⟨name, 0⟩ := by
    intro name
    rw [Versions.read, current]
  obtain ⟨last, done⟩ := Statement.lowerBody_simulates meaning scope scalar (fun _ => True) _ seeded
    env bounded agrees fun _ _ => trivial
  have executed := Body.execute_finish meaning ⟨sound.numbered, sound.decided⟩ chain
    (Body.build_noPhi scope plain) env
  refine ⟨last, ?_, ?_⟩
  · rw [executed, instructions]
    exact done.runs
  · rw [versions]
    exact done.agrees

/-- Sums and differences; the literal `1` is one and any other is zero. -/
def counting : Meaning Int where
  literal text := if text = "1" then 1 else 0
  unary _ value := -value
  binary operator left right := if operator = "+" then left + right else left - right
  result _ := 0

/-- The statements `x = y++ + (y = z); (x, y) = (y, x); x += 1; uint w; delete z;`, started with
`y = 5` and `z = 7`. -/
theorem swapped_sum_keeps_meaning :
    let x := Expression.identifier "x" false
    let y := Expression.identifier "y" false
    let z := Expression.identifier "z" false
    let statements : List Statement :=
      [.expression (.assign "=" x (.binary "+" (.unary "++" false y)
          (.tuple false [.assign "=" y z]))),
        .expression (.assign "=" (.tuple false [x, y]) (.tuple false [y, x])),
        .expression (.assign "+=" x (.literal { value := some "1" })),
        .declare [some ⟨"w", "uint256"⟩] .missing,
        .expression (.unary "delete" true z)]
    let body := Body.build {} statements
    let start : Env Int := fun read =>
      if read.name = "y" then 5 else if read.name = "z" then 7 else 0
    (∀ statement ∈ statements, statement.isScalar = true) ∧
      ∃ last, execute counting body.finish.1 start = some last ∧
        last ⟨"x", body.versions.current.version "x"⟩ = 8 ∧
        last ⟨"y", body.versions.current.version "y"⟩ = 12 ∧
        last ⟨"z", body.versions.current.version "z"⟩ = 0 ∧
        last ⟨"w", body.versions.current.version "w"⟩ = 0 := by
  intro x y z statements body start
  have scalar : ∀ statement ∈ statements, statement.isScalar = true := by decide
  obtain ⟨last, executed, holds⟩ := build_keeps_meaning counting {} scalar start
  refine ⟨scalar, last, executed, ?_, ?_, ?_, ?_⟩
  · exact (holds "x").trans (by decide)
  · exact (holds "y").trans (by decide)
  · exact (holds "z").trans (by decide)
  · exact (holds "w").trans (by decide)

end Reentrancy
