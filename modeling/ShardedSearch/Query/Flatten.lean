import ShardedSearch.Query.Basic

/-! # Flat queries

A conjunction directly inside a conjunction is spliced into it, likewise for
disjunctions, and a join of a single child is that child. Marked conjunctions keep
their wrapper.
-/

namespace ShardedSearch.Query

/-- What a node contributes to a conjunction around it. -/
def conjuncts : Query → List Query
  | and cs => cs
  | q => [q]

def disjuncts : Query → List Query
  | or cs => cs
  | q => [q]

/-- A join, unless it would have a single child. -/
def join (build : List Query → Query) : List Query → Query
  | [c] => c
  | cs => build cs

mutual

def flatten : Query → Query
  | and cs => join and ((flattenAll cs).flatMap conjuncts)
  | or cs => join or ((flattenAll cs).flatMap disjuncts)
  | marked m cs => marked m (flattenAll cs)
  | not c => not (flatten c)
  | q => q

def flattenAll : List Query → List Query
  | [] => []
  | c :: cs => flatten c :: flattenAll cs

end

theorem flattenAll_eq_map (cs : List Query) : flattenAll cs = cs.map flatten := by
  induction cs with
  | nil => rfl
  | cons c cs ih => simp [flattenAll, ih]

end ShardedSearch.Query
