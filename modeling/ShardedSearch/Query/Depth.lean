import ShardedSearch.Query.Basic

/-! # Depth of a query

The number of levels of a tree, and a search for it that stops as soon as a limit is
passed.
-/

namespace ShardedSearch.Query

mutual

/-- Number of levels; a condition has one. -/
def depth : Query → Nat
  | and cs => 1 + depthAll cs
  | or cs => 1 + depthAll cs
  | marked _ cs => 1 + depthAll cs
  | not c => 1 + depth c
  | _ => 1

def depthAll : List Query → Nat
  | [] => 0
  | c :: cs => max (depth c) (depthAll cs)

end

def stackSize (stack : List (Query × Nat)) : Nat := sizeAll (stack.map (·.1))

theorem size_pos (q : Query) : 0 < q.size := by
  rw [size_eq_children]; omega

theorem stackSize_children (q : Query) (level : Nat) (stack : List (Query × Nat)) :
    stackSize (q.children.map (·, level) ++ stack) + 1 = stackSize ((q, level) :: stack) := by
  have h : (q.children.map (·, level)).map (·.1) = q.children := by
    simp [Function.comp_def]
  simp only [stackSize, List.map_append, sizeAll_append, List.map_cons, sizeAll, h,
    size_eq_children q]
  omega

/-- The deepest level met from a stack of trees with their levels, or the first one
past the limit. -/
def search (limit : Nat) (deepest : Nat) : List (Query × Nat) → Nat
  | [] => deepest
  | (q, level) :: stack =>
    let deepest := max deepest level
    if limit < deepest then deepest
    else search limit deepest (q.children.map (·, level + 1) ++ stack)
termination_by stack => stackSize stack
decreasing_by
  have := stackSize_children q (level + 1) stack
  have := size_pos q
  simp only [stackSize, List.map_cons, sizeAll] at *
  omega

/-- The depth of a tree, but at most one more than the limit. -/
def depthWithin (limit : Nat) (q : Query) : Nat := search limit 0 [(q, 1)]

end ShardedSearch.Query
