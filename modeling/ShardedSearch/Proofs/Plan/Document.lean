import ShardedSearch.Calendar.Text
import ShardedSearch.Proofs.Query.Meaning
import ShardedSearch.Shard

/-! # Documents

The records that plans are to find. Each lives in a shard of a day with a year of four
digits and has fields with values.
-/

namespace ShardedSearch

structure Document where
  day : Calendar.Date
  year_mem : 0 ≤ day.year ∧ day.year ≤ 9999
  number : Nat
  uid : String
  pairs : List (String × String)

namespace Document

def shard (d : Document) : ShardId := Shard.ofDay d.day.text d.number

def IsWithin (d : Document) (first last : Calendar.Date) : Prop := first ≤ d.day ∧ d.day ≤ last

/-- The truth of terms that the pairs of a document tell. -/
def shows (d : Document) : Query → Bool
  | .equality field (some value) => (field, value) ∈ d.pairs
  | _ => false

/-- Whether a document satisfies a query, given the truth of the leaves for each document. -/
def Satisfies (truth : Document → Query → Bool) (d : Document) (q : Query) : Prop :=
  q.holds (truth d) = true

end Document

end ShardedSearch
