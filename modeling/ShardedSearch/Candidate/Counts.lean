import ShardedSearch.Query.Cost

/-! # Record counts

How many records of a shard hold a term, and how many a field, as far as the index
told. Counts of one term add up.
-/

namespace ShardedSearch

structure Counts where
  /-- By the text of the term. -/
  terms : SortedMap String Nat
  fields : SortedMap String Nat
deriving DecidableEq

namespace Counts

def empty : Counts := ⟨.empty, .empty⟩

instance : EmptyCollection Counts := ⟨empty⟩

/-- The count of one term and of its field. -/
def single (term : Query) (count : Nat) : Counts :=
  ⟨.insert term.text count .empty,
    match term.field? with
    | some field => .insert field count .empty
    | none => .empty⟩

def merge (c d : Counts) : Counts :=
  ⟨c.terms.mergeWith addCounts d.terms, c.fields.mergeWith addCounts d.fields⟩

end Counts

end ShardedSearch
