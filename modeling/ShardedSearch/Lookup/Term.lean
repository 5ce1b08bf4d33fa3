import ShardedSearch.Index.Layout
import ShardedSearch.Lookup.Batches
import ShardedSearch.Merge.Leaf

/-! # Looking up terms

The shards of a single term. Its entries come in shard order, one for every datatype of a
shard, and entries of one shard are merged. A shard without records is left out.
-/

namespace ShardedSearch

open Wire (Bytes WireError)
open Index (UidList)
open Merge (Source)
open Store (Entry StoreError Scanner)

def Evidence.ofUids (q : Query) (l : UidList) : Evidence :=
  ⟨if l.ignore then .unknown else .exact (.ofList l.uids), q, .single q l.count.toNat⟩

def Evidence.ofValue (q : Query) (value : Bytes) : Except WireError Evidence :=
  (Wire.ofBytes value).map (ofUids q)

def Evidence.merge (a b : Evidence) : Evidence := .disj [a, b] []

namespace Lookup

/-- Neighbours of the same shard together. -/
def groups : List Entry → List (ShardId × List Bytes)
  | [] => []
  | e :: es =>
    let shard := Index.Layout.shardOf e.1
    match groups es with
    | g :: gs => if shard = g.1 then (shard, e.2 :: g.2) :: gs else (shard, [e.2]) :: g :: gs
    | [] => [(shard, [e.2])]

def mergeValues (q : Query) (e : Evidence) : List Bytes → Except WireError Evidence
  | [] => .ok e
  | v :: vs =>
    match Evidence.ofValue q v with
    | .ok f => mergeValues q (e.merge f) vs
    | .error err => .error err

/-- What all values of a shard tell; none tell nothing. -/
def groupEvidence (q : Query) : List Bytes → Except WireError Evidence
  | [] => .ok (.unknown q)
  | v :: vs =>
    match Evidence.ofValue q v with
    | .ok e => mergeValues q e vs
    | .error err => .error err

/-- The candidates of groups of entries with the error behind them. Only reading past the
last entry tells that its shard is complete, so that error comes with its candidate. A
value that cannot be read ends the candidates. -/
def termSource (q : Query) (late : Option StoreError) : List (ShardId × List Bytes) → Source
  | [] => ⟨[], late.map .store⟩
  | g :: gs =>
    match groupEvidence q g.2 with
    | .error e => ⟨[], some (.wire e)⟩
    | .ok e =>
      if e.isEmpty then termSource q late gs
      else match gs with
        | [] => ⟨[(late.map .store, ⟨g.1, e⟩)], none⟩
        | gs =>
          let rest := termSource q late gs
          { rest with items := (none, ⟨g.1, e⟩) :: rest.items }

def ofTerm (q : Query) (batchSize : Nat) (firstOnly : Bool) (s : Except StoreError Scanner) :
    Merge.Lookup :=
  match s.bind (Batches.read batchSize firstOnly) with
  | .ok b => ⟨none, .ok (termSource q b.late (groups b.entries))⟩
  | .error e => ⟨none, .error (.store e)⟩

end Lookup

end ShardedSearch
