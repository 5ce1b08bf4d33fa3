import ShardedSearch.Lookup.Clause
import ShardedSearch.Plan.Basic
import ShardedSearch.Plan.Prepare

/-! # Runs over the shard index

The plans of a query from its stream, in shard order. The first error that was raised ends
the run in place of a plan; it comes before any candidate that is in view already. A run
that has been closed has no more plans.
-/

namespace ShardedSearch

open Merge (Context Stream)

structure PlanRun where
  config : PlanConfig
  /-- Without a root there are no more plans. -/
  root : Option Stream
  context : Context
  /-- The first error raised that was not handed out. -/
  raised : Option PlanError
  closed : Bool

namespace PlanRun

/-- What becomes of a root stream: conjunctions of mixed streams count as present, other
mixed streams as absent, and only a present one has plans. -/
def rootContext (q : Query) (c : Context) : Context :=
  match c, q with
  | .mixed, .and _ => .present
  | .mixed, _ => .absent
  | c, _ => c

def start (x : LookupContext) (q : Query) : Except Failure PlanRun := do
  let tree ← (q.prepare x.config.settings.lookup.maxDepth).mapError .error
  let made := (Lookup.rootOf x tree).run
  let root ← made.value
  let context := rootContext tree root.context
  pure ⟨x.config, if context = .present then some root else none, context, made.first?, false⟩

def close (r : PlanRun) : PlanRun := if r.closed then r else { r with root := none, closed := true }

def fail (e : PlanError) (r : PlanRun) : Option (Except PlanError ShardPlan) × PlanRun :=
  (some (.error e), { r with raised := none }.close)

def nextWithin : Nat → PlanRun → Option (Except PlanError ShardPlan) × PlanRun
  | 0, r => (none, r.close)
  | n + 1, r =>
    match r.raised with
    | some e => r.fail e
    | none =>
      if r.closed then (none, r)
      else match r.root with
        | none => (none, r.close)
        | some root =>
          let step := root.advance
          let r := { r with root := some step.value.2, raised := step.first? }
          match step.value.1 with
          | some candidate =>
            match ShardPlan.ofCandidate? r.config candidate with
            | some plan => (some (.ok plan), r)
            | none => nextWithin n r
          | none =>
            match r.raised with
            | some e => r.fail e
            | none => (none, r.close)

def remaining (r : PlanRun) : Nat := r.root.elim 0 Stream.remaining

/-- The next plan, or the error that ends the run. Each round takes a candidate. -/
def next (r : PlanRun) : Option (Except PlanError ShardPlan) × PlanRun :=
  r.nextWithin (r.remaining + 1)

end PlanRun

end ShardedSearch
