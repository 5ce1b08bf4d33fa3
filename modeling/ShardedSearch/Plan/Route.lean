import ShardedSearch.DayIndex.Run
import ShardedSearch.Plan.Planner
import ShardedSearch.Plan.Run

/-! # Routes

A query is planned with the bitmap indexes if its range is long and they can answer all of
it, otherwise with the shard index.
-/

namespace ShardedSearch

open Merge (Context)

/-- The plans of a query by one of the two ways. -/
inductive PlanStream where
  | lookup (run : PlanRun)
  | pruned (run : DayRun)

namespace PlanStream

def isPruned : PlanStream → Bool
  | lookup _ => false
  | pruned _ => true

/-- A pruned query counts as present. -/
def context : PlanStream → Context
  | lookup r => r.context
  | pruned _ => .present

def statistics? : PlanStream → Option DayIndex.Statistics
  | lookup _ => none
  | pruned r => some r.statistics

def close : PlanStream → PlanStream
  | lookup r => lookup r.close
  | pruned r => pruned r.close

def next : PlanStream → Option (Except PlanError ShardPlan) × PlanStream
  | lookup r =>
    let (p, r) := r.next
    (p, lookup r)
  | pruned r =>
    let (p, r) := r.next
    (p, pruned r)

def take : Nat → PlanStream → List (Except PlanError ShardPlan) × PlanStream
  | 0, s => ([], s)
  | n + 1, s =>
    match s.next with
    | (some p, s) =>
      let (ps, s) := take n s
      (p :: ps, s)
    | (none, s) => ([], s)

def remaining : PlanStream → Nat
  | lookup r => r.remaining
  | pruned r => r.left.length

/-- All plans left, and the error that ends them; after them comes nothing more. -/
def drain (s : PlanStream) : List (Except PlanError ShardPlan) × PlanStream :=
  s.take (s.remaining + 2)

end PlanStream

def Planner.plan (p : Planner) (q : Query) : Except Failure PlanStream := do
  let tree ← (q.prepare p.config.settings.lookup.maxDepth).mapError .error
  if p.usesPruning tree then
    PlanStream.pruned <$> (DayRun.start p.store p.config tree).mapError .error
  else PlanStream.lookup <$> PlanRun.start p.lookupContext tree

end ShardedSearch
