import ShardedSearch.Lookup.Context

/-! # Planners

A configuration with the store to plan for and the shard counts of its days.
-/

namespace ShardedSearch

structure Planner where
  store : Store
  config : PlanConfig
  counts : Index.ShardCounts

namespace Planner

/-- A planner that reads the shard counts from the metadata table. -/
def ofStore (store : Store) (config : PlanConfig) : Planner :=
  ⟨store, config, Index.ShardCounts.unread.load store config.settings.tables.metadata⟩

def usesPruning (p : Planner) (q : Query) : Bool :=
  p.config.settings.tables.dayIndex.isSome &&
    decide (p.config.settings.pruning.dayThreshold < p.config.dayCount) &&
    q.allIndexed p.config.indexed

def lookupContext (p : Planner) : LookupContext :=
  ⟨p.config, p.counts, fun _ => p.store.openScanner p.config.settings.tables.shardIndex⟩

end Planner

end ShardedSearch
