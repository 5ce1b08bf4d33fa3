import ShardedSearch.Index.UidList
import ShardedSearch.Number.Integer
import ShardedSearch.Shard
import ShardedSearch.Store.Range

/-! # Index layout

Where the indexes keep what. The shard index has a row for every value, with the
field as family and shard and datatype as qualifier. The bitmap indexes have a row for
every day or year with a value, with the field as family and the datatype as
qualifier. The metadata table has a row of shard counts, with day and count as
qualifier.
-/

namespace ShardedSearch.Index.Layout

open Store

def separator : Char := '\x00'

def termKey (value field : String) (shard : ShardId) (datatype : String) : Key :=
  ⟨value, field, shard ++ "\x00" ++ datatype⟩

def shardOf (k : Key) : ShardId := Text.before separator k.qualifier

/-- The shard index entries of a term between two days. -/
def termRange (value field firstDay lastDay : String) : Range :=
  .halfOpen ⟨value, field, firstDay ++ "_"⟩
    (match rowAbove? (lastDay ++ "_") with
    | some qualifier => ⟨value, field, qualifier⟩
    | none => ⟨value, field ++ "\x00", ""⟩)

def periodRow (period value : String) : String := period ++ "\x00" ++ value

def ofPeriodRow? (row : String) : Option (String × String) := Text.splitFirst? separator row

def shardCountRow : String := "num_shards"

def shardCountFamily : String := "ns"

def shardCountKey (day : String) (count : Nat) : Key :=
  ⟨shardCountRow, shardCountFamily, Shard.ofDay day count⟩

def ofShardCountQualifier? (qualifier : String) : Option (String × Nat) :=
  match Text.splitLast? Shard.mark qualifier with
  | some (day, count) => (Number.unsigned count).toOption.map (day, ·)
  | none => none

end ShardedSearch.Index.Layout
