import ShardedSearch.PlanError
import ShardedSearch.Query.Depth
import ShardedSearch.Query.Flatten

/-! # Preparing queries

Queries are planned in flat form, and only up to a depth.
-/

namespace ShardedSearch.Query

/-- The flat form of a query that is not too deep. -/
def prepare (maxDepth : Nat) (q : Query) : Except PlanError Query :=
  let depth := q.flatten.depthWithin maxDepth
  if maxDepth < depth then .error (.depthExceeded depth maxDepth) else .ok q.flatten

end ShardedSearch.Query
