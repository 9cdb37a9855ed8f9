import Reentrancy.Ssa.Lowering

/-! Lowering steps compose: what they emit is concatenated, and each step starts from the
version tables that the one before it left. -/
namespace Reentrancy

namespace Emission

theorem empty_append (emission : Emission) : Emission.append {} emission = emission := by
  simp [append]

theorem append_empty (emission : Emission) : emission.append {} = emission := by
  simp [append]

theorem append_assoc (first second third : Emission) :
    (first.append second).append third = first.append (second.append third) := by
  simp [append]

end Emission

namespace Lower

variable {α β γ : Type}

@[simp] theorem pure_apply (value : α) (versions : Versions) :
    (Pure.pure value : Lower α) versions = ⟨value, {}, versions⟩ := rfl

@[simp] theorem bind_apply (first : Lower α) (next : α → Lower β) (versions : Versions) :
    (first >>= next) versions =
      ⟨(next (first versions).value (first versions).versions).value,
        (first versions).emission.append
          (next (first versions).value (first versions).versions).emission,
        (next (first versions).value (first versions).versions).versions⟩ := rfl

theorem pure_then (value : α) (next : α → Lower β) : Pure.pure value >>= next = next value := by
  funext versions
  simp [Emission.empty_append]

theorem then_pure (step : Lower α) : step >>= Pure.pure = step := by
  funext versions
  simp [Emission.append_empty]

theorem then_assoc (first : Lower α) (second : α → Lower β) (third : β → Lower γ) :
    first >>= second >>= third = first >>= fun value => second value >>= third := by
  funext versions
  simp [Emission.append_assoc]

instance : LawfulMonad Lower :=
  LawfulMonad.mk' Lower then_pure pure_then then_assoc

@[simp] theorem map_apply (change : α → β) (step : Lower α) (versions : Versions) :
    (change <$> step) versions =
      ⟨change (step versions).value, (step versions).emission, (step versions).versions⟩ := by
  rw [map_eq_pure_bind]
  simp [Emission.append_empty]

theorem ite_then (holds : Prop) [Decidable holds] (yes no : Lower α) (next : α → Lower β) :
    (if holds then yes >>= next else no >>= next) = (if holds then yes else no) >>= next := by
  split <;> rfl

end Lower

theorem Expression.writesOperand_iff {operator : String} :
    writesOperand operator = true ↔ (operator = "++" ∨ operator = "--") ∨ operator = "delete" := by
  simp [writesOperand, or_assoc]

end Reentrancy
