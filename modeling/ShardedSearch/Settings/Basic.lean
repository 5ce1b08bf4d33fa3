/-! # Settings

What can be tuned about planning, with the values used where nothing is set.
-/

namespace ShardedSearch

structure TableSettings where
  shardIndex : String := "shardIndex"
  /-- Without a day index nothing is pruned. -/
  dayIndex : Option String := some "shardDayIndex"
  /-- Tells which days of a year can be skipped. -/
  yearIndex : Option String := some "shardYearIndex"
  /-- Holds the shard counts of days. -/
  metadata : String := "metadata"
deriving DecidableEq

structure LookupSettings where
  /-- Workers that initialize streams. -/
  threads : Nat := 8
  /-- Entries fetched at a time. -/
  batchSize : Nat := 100
  /-- Depth of the deepest query that is planned. -/
  maxDepth : Nat := 2500
  /-- Datatypes to look up; any if there are none. -/
  datatypes : List String := []
  /-- Whether evaluation can check exceeded values of fields that only the index has. -/
  evaluatesExceeded : Bool := true
deriving DecidableEq

structure PruningSettings where
  /-- Workers that scan the day index. -/
  threads : Nat := 8
  /-- Ranges of more days than this are pruned. -/
  dayThreshold : Nat := 30
  /-- Ranges of more days than this use the year index; none does if it is -1. -/
  yearThreshold : Int := 730
deriving DecidableEq

structure PlanSettings where
  /-- Shards with an id that does not match get no plan. -/
  idPattern : String := "^\\d\x7b8\x7d(_\\d+)?$"
  termCounts : Bool := true
  fieldCounts : Bool := false
  /-- Whether clauses are sorted by how much they match. -/
  sortByCounts : Bool := false
deriving DecidableEq

structure Settings where
  tables : TableSettings := {}
  lookup : LookupSettings := {}
  pruning : PruningSettings := {}
  plans : PlanSettings := {}
deriving DecidableEq

end ShardedSearch
