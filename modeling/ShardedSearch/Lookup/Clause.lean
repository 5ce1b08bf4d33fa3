import ShardedSearch.Lookup.Context
import ShardedSearch.Lookup.Enumeration
import ShardedSearch.Lookup.Interval
import ShardedSearch.Lookup.Memory
import ShardedSearch.Merge.Stream

/-! # Streams of queries

Every clause of a query becomes a stream of the shards where it may hold. The index looks
up equalities on indexed fields and bounded ranges of them; hints and exceeded values list
shards; clauses the index cannot answer are delayed, and those that cannot hold anywhere
are absent.
-/

namespace ShardedSearch

open Merge (Leaf LeafState Stream)
open Store (Key Range Scanner StoreError)

namespace Lookup

variable (x : LookupContext)

def leaf (q : Query) (state : LeafState) : Stream := .leaf ⟨q, state⟩

/-- The scanner of a place for one field and the datatypes of the settings. -/
def openScanner (place : Place) (field : String) (range : Range) :
    Except StoreError Scanner := do
  let s ← x.scannerAt place
  let s := (s.setRange range).fetchFamily field
  match x.config.settings.lookup.datatypes with
  | [] => pure s
  | types =>
    s.addFilter Scanner.datatypeFilter
      (.insert Scanner.typesOption (",".intercalate types) .empty)

def batchSize : Nat := x.config.settings.lookup.batchSize

def term (place : Place) (q : Query) (field value : String) : Stream :=
  let range := Index.Layout.termRange value field x.config.firstDay x.config.lastDay
  let s := openScanner x place field range
  leaf q (.pending (holding (batchSize x) s (ofTerm q (batchSize x) false s)))

def rowsBetween (lower upper : String) (lowerIncluded upperIncluded : Bool) : Range :=
  .halfOpen (.ofRow (if lowerIncluded then lower else lower ++ "\x00"))
    (.ofRow (if upperIncluded then upper ++ "\x00" else upper))

def interval (place : Place) (q : Query) (field lower upper : String)
    (lowerIncluded upperIncluded : Bool) : Stream :=
  let rows := rowsBetween lower upper lowerIncluded upperIncluded
  if rows.isEmpty then leaf q .absent
  else
    let s := openScanner x place field rows
    leaf q (.pending (holding (batchSize x) s
      (ofInterval q x.config.firstDay x.config.lastDay (batchSize x) false s)))

def equality (place : Place) (q : Query) (field : String) (literal : Option String) : Stream :=
  if Query.isUnfielded field then leaf q .absent
  else match literal with
    | none => leaf q .delayed
    | some value =>
      if field = Query.datatypeField then leaf q .delayed
      else if !x.config.isKnown field then leaf q .absent
      else if !x.config.isIndexed field then leaf q .delayed
      else term x place q field value

def condition (q : Query) (field : String) : Stream :=
  leaf q (if Query.isUnfielded field then .absent else .delayed)

/-- The least field of a query that only the index has. -/
def indexOnlyField? (q : Query) : Option String := q.fields.toList.find? x.config.isIndexOnly

/-- The stream of an enumeration. One that stops at a day whose shards cannot be listed is
given up at once, although candidates of days before it might still be taken. -/
def enumeration (q : Query) : Option (List Candidate) → Except Failure Stream
  | some cs => .ok (.leaf (.ofList q cs))
  | none => .error .unwound

/-- The stream of a clause with exceeded values: every shard, unless evaluation cannot check
one of its fields. -/
def exceeded (q : Query) : Except Failure Stream :=
  let field? := if x.config.settings.lookup.evaluatesExceeded then none else indexOnlyField? x q
  match field? with
  | some field => .error (.error (.unboundedField field))
  | none => enumeration q (shardsOfDays? q x.config.days x.counts)

def marked (place : Place) (q : Query) (m : Marker) (children : List Query) :
    Except Failure Stream :=
  match m with
  | .exceededTerm | .delayed | .evaluationOnly | .indexHole => .ok (leaf q .delayed)
  | .dropped => .ok (leaf q .skipped)
  | .exceededValue | .exceededOr => exceeded x q
  | .boundedRange =>
    match children with
    | [.range field lower upper li ui] =>
      .ok (if x.config.isIndexed field then interval x place q field lower upper li ui
        else leaf q .delayed)
    | _ => .ok (leaf q .delayed)

def pool : WorkerPool := .start "index-lookup" x.config.settings.lookup.threads

def conjunction (q : Query) (streams : List Stream) : Stream.Making Stream := do
  match streams with
  | [] => pure (leaf q .absent)
  | streams =>
    let j ← Stream.allOf q streams (some (pool x))
    pure (if j.context = .absent then leaf q .absent else .conjunction j)

def disjunction (q : Query) (streams : List Stream) : Stream.Making Stream := do
  match streams with
  | [] => pure (leaf q .absent)
  | streams =>
    let d ← Stream.anyOf q streams (some (pool x))
    match d.context with
    | .absent => pure (leaf q .absent)
    | .delayed => pure (leaf q .delayed)
    | _ => pure (.disjunction d)

mutual

def streamOf (place : Place) : Query → Stream.Making Stream
  | .equality field literal => pure (equality x place (.equality field literal) field literal)
  | .range field l u li ui => pure (condition (.range field l u li ui) field)
  | .compare field op literal => pure (condition (.compare field op literal) field)
  | .regex field pattern => pure (condition (.regex field pattern) field)
  | .not q => pure (leaf (.not q) .delayed)
  | .function name args => pure (leaf (.function name args) .delayed)
  | .true => pure (leaf .true .delayed)
  | .false => pure (leaf .false .absent)
  | .assignment name value =>
    let q := .assignment name value
    if name = Query.hintName then liftM (enumeration q (hinted? q value x.counts))
    else pure (leaf q .skipped)
  | .marked m cs => liftM (marked x place (.marked m cs) m cs)
  | .and cs => do conjunction x (.and cs) (← streamsOf place 0 cs)
  | .or cs => do disjunction x (.or cs) (← streamsOf place 0 cs)

/-- The streams of siblings from a position on, without those that take no part. -/
def streamsOf (place : Place) (position : Nat) : List Query → Stream.Making (List Stream)
  | [] => pure []
  | q :: qs => do
    let s ← streamOf (position :: place) q
    let ss ← streamsOf place (position + 1) qs
    pure (if s.context = .skipped then ss else s :: ss)

end

/-- The stream of a whole query, looked up. -/
def rootOf (q : Query) : Stream.Making Stream := do
  let s ← streamOf x [] q
  s.await

end Lookup

end ShardedSearch
