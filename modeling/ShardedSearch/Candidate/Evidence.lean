import ShardedSearch.Candidate.Counts
import ShardedSearch.Query.Flatten
import ShardedSearch.Shard

/-! # Evidence

What the index says about one shard: the matching records, if it knows them, the query
still to be evaluated there, and record counts. Evidence for several clauses combines
by conjunction or disjunction; deferred clauses, of which the index knows nothing, take
part with their query alone.
-/

namespace ShardedSearch

/-- The matching records of a shard. -/
inductive Matches where
  /-- There may be some. -/
  | unknown
  | exact (uids : SortedSet String)
deriving DecidableEq

namespace Matches

/-- Combines two sets of records; if one is not known, neither is the result. -/
def combine (f : SortedSet String → SortedSet String → SortedSet String) :
    Matches → Matches → Matches
  | exact s, exact t => exact (f s t)
  | _, _ => unknown

def combineAll (f : SortedSet String → SortedSet String → SortedSet String) :
    List Matches → Matches
  | [] => unknown
  | m :: ms => ms.foldl (combine f) m

/-- Whether there is certainly none. -/
def isEmpty : Matches → Bool
  | exact uids => uids.isEmpty
  | unknown => false

def count? : Matches → Option Nat
  | exact uids => some uids.size
  | unknown => none

end Matches

structure Evidence where
  found : Matches
  query : Query
  counts : Counts
deriving DecidableEq

namespace Evidence

/-- Evidence of clauses that the index does not answer. -/
def unknown (q : Query) : Evidence := ⟨.unknown, q, .empty⟩

def exact (uids : List String) (q : Query) : Evidence := ⟨.exact (.ofList uids), q, .empty⟩

def isEmpty (e : Evidence) : Bool := e.found.isEmpty

/-- Queries without repeats, in the order in which they come first. -/
def distinct : List Query → List Query
  | [] => []
  | q :: qs => q :: (distinct qs).filter (decide <| · ≠ q)

/-- Combines evidence: the records by an operation on sets, the queries by a join, the
counts by addition. -/
def combine (f : SortedSet String → SortedSet String → SortedSet String)
    (build : List Query → Query) (parts : Query → List Query) (es : List Evidence)
    (deferred : List Query) : Evidence where
  found := if deferred.isEmpty then .combineAll f (es.map (·.found)) else .unknown
  query := Query.join build (distinct ((es.map (·.query) ++ deferred).flatMap parts))
  counts := (es.map (·.counts)).foldl Counts.merge .empty

def conj (es : List Evidence) (deferred : List Query) : Evidence :=
  combine SortedSet.inter .and Query.conjuncts es deferred

def disj (es : List Evidence) (deferred : List Query) : Evidence :=
  combine SortedSet.union .or Query.disjuncts es deferred

end Evidence

/-- A shard, or all of a day, that may hold matching records. -/
structure Candidate where
  shard : ShardId
  evidence : Evidence
deriving DecidableEq

end ShardedSearch
