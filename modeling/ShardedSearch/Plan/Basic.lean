import ShardedSearch.Candidate.Evidence
import ShardedSearch.Plan.Config
import ShardedSearch.Store.Range

/-! # Shard plans

The work of one shard, or of all shards of a day: which rows to scan and what to evaluate
there. A shard has its own row; ids that the pattern of the configuration does not admit
have no rows and get no plan.
-/

namespace ShardedSearch

open Store (Range)

structure ShardPlan where
  shard : ShardId
  ranges : List Range
  query : Query
  termCounts : SortedMap String Nat
  fieldCounts : SortedMap String Nat
deriving DecidableEq

namespace ShardPlan

/-- The rows of an id: its own, or those of all shards of a day. -/
def rangesOf (pattern : Pattern) (id : ShardId) : List Range :=
  if pattern.occursIn id then
    [if Shard.isDay id then .rowsFrom (id ++ "_") else .row id]
  else []

/-- Sorts the clauses of a query by term counts, or by field counts if there are none. -/
def order (q : Query) (termCounts fieldCounts : SortedMap String Nat) : Query :=
  if !termCounts.isEmpty then q.orderByCost termCounts .term
  else if !fieldCounts.isEmpty then q.orderByCost fieldCounts .field
  else q

/-- The plan of a query in a shard, with the counts that the configuration wants. -/
def make? (c : PlanConfig) (shard : ShardId) (q : Query) (counts : Counts) : Option ShardPlan :=
  match rangesOf c.idPattern shard with
  | [] => none
  | ranges =>
    let s := c.settings.plans
    let terms := if s.termCounts then counts.terms else .empty
    let fields := if s.fieldCounts then counts.fields else .empty
    some ⟨shard, ranges, if s.sortByCounts then order q terms fields else q, terms, fields⟩

def ofCandidate? (c : PlanConfig) (k : Candidate) : Option ShardPlan :=
  make? c k.shard k.evidence.query k.evidence.counts

def ofShard? (c : PlanConfig) (shard : ShardId) (q : Query) : Option ShardPlan :=
  make? c shard q .empty

def isDay (p : ShardPlan) : Bool := Shard.isDay p.shard

end ShardPlan

end ShardedSearch
