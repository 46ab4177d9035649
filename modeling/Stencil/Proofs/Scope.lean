import Stencil.Code.Scope
import Stencil.Proofs.Fields

namespace Stencil.Scope

variable {α : Type} {x : String} {loops : List LoopNames} {n : Nat}

theorem lt_of_mem_namesOf (h : (x, n) ∈ namesOf loops) : n < 2 * loops.length := by
  induction loops <;> simp only [namesOf, List.mem_append, List.not_mem_nil] at h
  case cons names loops hi =>
    simp only [List.length_cons]
    cases h
    case inl h =>
      have := hi h
      omega
    case inr h =>
      simp at h
      omega

-- The list of all names and the search for one name agree on what is hidden: of the entries for a
-- name, the last one has the slot that the search finds.
theorem get?_namesOf (f : Nat → α) :
    Fields.get? ((namesOf loops).map fun (name, n) => (name, f n)).reverse x =
      (slotIn? x loops).map f := by
  induction loops
  case nil => rfl
  case cons names loops hi =>
    simp only [namesOf, slotIn?, List.map_append, List.reverse_append]
    simp only [List.map_cons, List.map_nil, List.reverse_cons, List.reverse_nil, List.nil_append,
      List.cons_append, Fields.get?_cons, hi]
    split <;> try split
    all_goals rfl

end Stencil.Scope
