import ShardedSearch.Index.Layout
import ShardedSearch.Memory
import ShardedSearch.Store.Basic

/-! # Shard counts

How many shards each day has, read once from the metadata table. A day without a
count of its own has the count of the latest day before it that has one. Any number may be
recorded, but the shards are listed only if there can be memory for the list.
-/

namespace ShardedSearch.Index

structure ShardCounts where
  counts : SortedMap String Nat
  /-- Whether the metadata table is not read any more. -/
  loaded : Bool

namespace ShardCounts

def unread : ShardCounts := ⟨.empty, false⟩

def ofList (counts : List (String × Nat)) : ShardCounts := ⟨.ofList counts, true⟩

/-- The counts in a table. Of two counts of a day the later one in key order counts. -/
def scan (store : Store) (table : String) : Except Store.StoreError (SortedMap String Nat) :=
  (store.scanRange table [Layout.shardCountFamily] (.row Layout.shardCountRow)).map fun es =>
    .ofList (es.filterMap fun e => Layout.ofShardCountQualifier? e.1.qualifier)

/-- Reads the counts, unless that was tried before. A failed read leaves them empty. -/
def load (store : Store) (table : String) (c : ShardCounts) : ShardCounts :=
  if c.loaded then c
  else match scan store table with
    | .ok counts => ⟨counts, true⟩
    | .error _ => { c with loaded := true }

/-- The count of a day, zero if none is known at or before it. -/
def count (day : String) (c : ShardCounts) : Nat := ((c.counts.floor? day).map (·.2)).getD 0

/-- The shards that a day has, in ascending order. -/
def shardsOf (day : String) (c : ShardCounts) : List ShardId :=
  ((List.range (c.count day)).map (Shard.ofDay day)).mergeSort fun a b => ¬ b < a

/-- Bytes that an id takes in a list, its text apart. -/
def idBytes : Nat := 24

/-- Whether there can be memory for a list of the shards of a day. -/
def canList (day : String) (c : ShardCounts) : Bool := c.count day * idBytes ≤ bytesMax

def shardsOf? (day : String) (c : ShardCounts) : Option (List ShardId) :=
  if c.canList day then some (c.shardsOf day) else none

/-- The shards of a day, or the day itself if its count is not known. -/
def expand (day : String) (c : ShardCounts) : List ShardId :=
  match c.shardsOf day with
  | [] => [day]
  | ids => ids

end ShardCounts

end ShardedSearch.Index
