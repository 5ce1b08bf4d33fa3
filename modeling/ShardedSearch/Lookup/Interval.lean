import ShardedSearch.Lookup.Term
import ShardedSearch.Order.Map

/-! # Looking up intervals

The shards of all terms between two values. Entries come in the order of the values, so
all of them are read and merged by shard before the first candidate is known. Shards of
other days are left out.
-/

namespace ShardedSearch.Lookup

open Wire (Bytes WireError)
open Store (Entry StoreError Scanner)

def addEntries (q : Query) (firstDay lastDay : String) (found : SortedMap ShardId Evidence) :
    List Entry → Except WireError (SortedMap ShardId Evidence)
  | [] => .ok found
  | e :: es =>
    let shard := Index.Layout.shardOf e.1
    let day := Shard.dayOf shard
    if day < firstDay ∨ lastDay < day then addEntries q firstDay lastDay found es
    else match Evidence.ofValue q e.2 with
      | .ok ev => addEntries q firstDay lastDay (found.insertWith Evidence.merge shard ev) es
      | .error err => .error err

/-- The candidates of merged entries; shards without records are left out. -/
def mergedCandidates (found : SortedMap ShardId Evidence) : List Candidate :=
  (found.toList.filter fun e => !e.2.isEmpty).map fun e => ⟨e.1, e.2⟩

def ofInterval (q : Query) (firstDay lastDay : String) (batchSize : Nat) (firstOnly : Bool)
    (s : Except StoreError Scanner) : Merge.Lookup :=
  match s.bind (Batches.read batchSize firstOnly) with
  | .ok b =>
    match addEntries q firstDay lastDay .empty b.entries with
    | .ok found => ⟨b.late.map .store, .ok (.ofList (mergedCandidates found))⟩
    | .error e => ⟨none, .error (.wire e)⟩
  | .error e => ⟨none, .error (.store e)⟩

end ShardedSearch.Lookup
