import ShardedSearch.Index.PeriodEntry
import ShardedSearch.Plan.Basic

/-! # Pruned queries

What is left of a query in one shard of a day, by the bitmaps of that day. A term that was
looked up holds only where its bitmap says so; what was not looked up stays.
-/

namespace ShardedSearch

open Index (PeriodEntry)

/-- A join of what is left; nothing if nothing is. -/
def Query.join? (build : List Query → Query) : List Query → Option Query
  | [] => none
  | cs => some (join build cs)

namespace DayIndex

variable (e : PeriodEntry) (wanted : SortedSet String) (offset : Nat)

/-- Whether an equality may hold. -/
def mayHold (term : String) : Bool :=
  match e.get? term with
  | some offsets => offsets.contains offset
  | none => ¬ term ∈ wanted

mutual

/-- The query without the branches that are false at an offset; nothing if it is false
itself. -/
def prune : Query → Option Query
  | .equality field literal =>
    let q := Query.equality field literal
    if mayHold e wanted offset q.text then some q else none
  | .false => none
  | .and cs =>
    match pruneEach cs with
    | some cs => Query.join? .and cs
    | none => none
  | .or cs => Query.join? .or (pruneAny cs)
  | q => some q

/-- All queries pruned, if none of them is false. -/
def pruneEach : List Query → Option (List Query)
  | [] => some []
  | q :: qs =>
    match prune q, pruneEach qs with
    | some q, some qs => some (q :: qs)
    | _, _ => none

def pruneAny : List Query → List Query
  | [] => []
  | q :: qs =>
    match prune q with
    | some q => q :: pruneAny qs
    | none => pruneAny qs

end

/-- The plans of a day: one for every offset, in order, where something is left. -/
def plansOf (c : PlanConfig) (q : Query) (wanted : SortedSet String) (e : PeriodEntry) :
    List ShardPlan :=
  if e.isEmpty then []
  else
    let (least, greatest) := e.bounds
    (List.range' least (greatest + 1 - least)).filterMap fun offset =>
      (prune e wanted offset q).bind (ShardPlan.ofShard? c (Shard.ofDay e.key offset))

end DayIndex

end ShardedSearch
