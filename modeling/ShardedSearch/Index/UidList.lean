import ShardedSearch.Wire.Form

/-! # Uid lists

The value of a shard index entry: how many records of the shard hold the term and,
unless there were too many to keep, their identifiers.
-/

namespace ShardedSearch.Index

open Wire

structure UidList where
  count : UInt64
  /-- Whether the identifiers are not kept. -/
  ignore : Bool
  uids : List String
deriving DecidableEq

namespace UidList

def exact (uids : List String) : UidList := ⟨uids.length.toUInt64, false, uids⟩

/-- A count too large to keep identifiers for. -/
def counted (count : UInt64) : UidList := ⟨count, true, []⟩

def encodeUids (uids : List String) : Bytes := Varint.encode uids.length ++ uids.flatMap encode

/-- Every identifier takes at least one byte, so their number is at most the number of
bytes left. -/
def decodeUids (bs : Bytes) : Except WireError (List String × Bytes) :=
  match Varint.decode bs with
  | .ok (n, rest) =>
    if rest.length < n then .error (.truncated .uidList n rest.length) else decodeMany n rest
  | .error e => .error e

instance : Form UidList where
  encode l := encode l.count ++ encode l.ignore ++ encodeUids l.uids
  decode bs := do
    let (count, bs) ← decode bs
    let (ignore, bs) ← decode bs
    let (uids, bs) ← decodeUids bs
    pure (⟨count, ignore, uids⟩, bs)
  size l :=
    size l.count + size l.ignore + Varint.size l.uids.length +
      (l.uids.map size).foldr (· + ·) 0

end UidList

end ShardedSearch.Index
