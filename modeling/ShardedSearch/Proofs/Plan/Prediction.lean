import ShardedSearch.Proofs.Plan.Routing
import ShardedSearch.Proofs.Plan.Run

/-! # Predicted routes

The route of a query is chosen for its flat form, but may be asked for before it is planned.
A predicted use of the bitmaps is always right. The bitmaps are used unpredicted just for
queries with a join of nothing inside, which flattening drops.
-/

namespace ShardedSearch.Planner

variable {p : Planner} {q : Query} {s : PlanStream}

theorem isPruned_of_plan (h : p.plan q = .ok s) : s.isPruned = p.usesPruning q.flatten := by
  rcases plan_cases h with ⟨huses, run, -, rfl⟩ | ⟨huses, run, -, rfl⟩
  · exact huses.symm
  · exact huses.symm

theorem usesPruning_iff_flatten :
    p.usesPruning q = true ↔ p.usesPruning q.flatten = true ∧ q.IsFilled := by
  simp only [usesPruning, Bool.and_eq_true, and_assoc]
  rw [Query.allIndexed_iff_flatten]

/-- The bitmaps are predicted just when they are used and the query has no join of nothing. Such a
join is also all that the test for indexed equalities can find in a query and not in its flat
form. -/
theorem usesPruning_iff_isPruned (h : p.plan q = .ok s) :
    (p.usesPruning q = true ↔ s.isPruned = true ∧ q.IsFilled) ∧
    ∀ indexed, q.allIndexed indexed = true ↔ q.flatten.allIndexed indexed = true ∧ q.IsFilled := by
  rw [isPruned_of_plan h]
  exact ⟨usesPruning_iff_flatten, fun _ => Query.allIndexed_iff_flatten⟩

theorem usesPruning_iff_isPruned_typeQuery :
    ∃ s, typePlanner.plan typeQuery = .ok s ∧
      (typePlanner.usesPruning typeQuery = true ↔ s.isPruned = true ∧ typeQuery.IsFilled) ∧
      ∀ indexed, typeQuery.allIndexed indexed = true ↔
        typeQuery.flatten.allIndexed indexed = true ∧ typeQuery.IsFilled := by
  have hplanned : (typePlanner.plan typeQuery).toOption.isSome = true := by decide +kernel
  cases hs : typePlanner.plan typeQuery with
  | error e =>
    rw [hs] at hplanned
    cases hplanned
  | ok s => exact ⟨s, rfl, usesPruning_iff_isPruned hs⟩

def hollowQuery : Query := .and [.and [], .equals "A" "1"]

theorem isPruned_hollowQuery : typePlanner.usesPruning hollowQuery = false ∧
    hollowQuery.allIndexed typePlanner.config.indexed = false ∧
    hollowQuery.flatten.allIndexed typePlanner.config.indexed = true ∧
    (typePlanner.plan hollowQuery).toOption.map (·.isPruned) = some true := by
  decide +kernel

end ShardedSearch.Planner
