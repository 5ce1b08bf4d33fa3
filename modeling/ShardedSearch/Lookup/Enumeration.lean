import ShardedSearch.Candidate.Evidence
import ShardedSearch.Index.ShardCounts
import ShardedSearch.Text.Blank

/-! # Enumerated shards

Candidates that are listed instead of looked up: all shards of some days, the days
themselves, or what a hint names. Nothing is known about their records. An enumeration
comes to an end only if the shards of all its days can be listed.
-/

namespace ShardedSearch.Lookup

open Index (ShardCounts)

def unknownAt (q : Query) (shard : ShardId) : Candidate := ⟨shard, .unknown q⟩

/-- The shards of days; a day whose count is not known stands for itself. -/
def shardsOfDays (q : Query) (days : List String) (counts : ShardCounts) : List Candidate :=
  (days.flatMap counts.expand).map (unknownAt q)

def shardsOfDays? (q : Query) (days : List String) (counts : ShardCounts) :
    Option (List Candidate) :=
  if days.all counts.canList then some (shardsOfDays q days counts) else none

theorem shardsOfDays?_eq_some {q : Query} {days : List String} {counts : ShardCounts}
    {cs : List Candidate} (h : shardsOfDays? q days counts = some cs) :
    cs = shardsOfDays q days counts :=
  (Option.some.inj (Option.ite_none_right_eq_some.mp h).2).symm

def wholeDays (q : Query) (days : List String) : List Candidate := days.map (unknownAt q)

/-- The shards and days of a hint, between commas. -/
def hintedIds (hint : String) : List ShardId :=
  ((Text.split ',' hint).map Text.trim).filter (· ≠ "")

/-- The ids of a hint, days as their shards. -/
def hintedShards (hint : String) (counts : ShardCounts) : SortedSet ShardId :=
  .ofList ((hintedIds hint).flatMap fun id =>
    if Shard.isDay id then counts.expand id else [id])

def hinted (q : Query) (hint : String) (counts : ShardCounts) : List Candidate :=
  (hintedShards hint counts).toList.map (unknownAt q)

def hinted? (q : Query) (hint : String) (counts : ShardCounts) : Option (List Candidate) :=
  if ((hintedIds hint).filter Shard.isDay).all counts.canList then some (hinted q hint counts)
  else none

theorem hinted?_eq_some {q : Query} {hint : String} {counts : ShardCounts} {cs : List Candidate}
    (h : hinted? q hint counts = some cs) : cs = hinted q hint counts :=
  (Option.some.inj (Option.ite_none_right_eq_some.mp h).2).symm

end ShardedSearch.Lookup
