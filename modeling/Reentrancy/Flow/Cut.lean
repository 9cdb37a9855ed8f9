/-! Cutting a list after chosen elements. -/
namespace Reentrancy

/-- Nonempty runs that together are the list; each run but the last ends in a chosen
element, and no other element of a run is chosen. -/
def cutAfter {α : Type} (ends : α → Bool) : List α → List (List α)
  | [] => []
  | first :: rest =>
    if ends first then [first] :: cutAfter ends rest
    else match cutAfter ends rest with
      | [] => [[first]]
      | run :: others => (first :: run) :: others

end Reentrancy
