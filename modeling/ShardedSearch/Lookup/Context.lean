import ShardedSearch.Index.ShardCounts
import ShardedSearch.Plan.Config

/-! # Look-up contexts

What the look-ups of a query have to go by. Each of them opens a scanner of the shard
index of its own, so one may fail where another does not.
-/

namespace ShardedSearch

/-- The way to a clause of a query: positions among siblings, from the clause outwards. -/
abbrev Place := List Nat

structure LookupContext where
  config : PlanConfig
  counts : Index.ShardCounts
  /-- The scanner of the shard index that the clause at a place opens. -/
  scannerAt : Place → Except Store.StoreError Store.Scanner

end ShardedSearch
