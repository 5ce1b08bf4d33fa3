import ShardedSearch.Order.Map
import ShardedSearch.Store.Error
import ShardedSearch.Store.Range
import ShardedSearch.Text.Separator
import ShardedSearch.Wire.Varint

/-! # Scanners

A forward pass over the entries of one table, as they were when the scanner was
opened. A scanner has a range, may be restricted to column families and datatypes,
and may seek ahead. The scan of a failing table answers a limited number of reads.
-/

namespace ShardedSearch.Store

open Wire (Bytes)

abbrev Entry := Key × Bytes

abbrev Table := SortedMap Key Bytes

inductive Position where
  /-- At the key itself. -/
  | at (key : Key)
  /-- Behind the key. -/
  | past (key : Key)
deriving DecidableEq

namespace Position

def key : Position → Key
  | .at k => k
  | .past k => k

def admits : Position → Key → Bool
  | .at k, x => ¬ x < k
  | .past k, x => k < x

end Position

/-- How many reads a scan of a range of a table answers before it fails. -/
abbrev ReadLimit := String → Option Range → Option Nat

structure Scanner where
  table : String
  /-- The entries of the table in key order. -/
  entries : List Entry
  readLimit : ReadLimit
  range : Option Range
  /-- Families to return; any if there are none. -/
  families : SortedSet String
  /-- Datatypes to return; any if not given. -/
  datatypes : Option (List String)
  position : Option Position
  /-- Number of reads so far. -/
  reads : Nat

namespace Scanner

def ofTable (name : String) (table : Table) (readLimit : ReadLimit) : Scanner :=
  ⟨name, table.toList, readLimit, none, .empty, none, none, 0⟩

def setRange (range : Range) (s : Scanner) : Scanner :=
  { s with range := some range, position := none }

def fetchFamily (family : String) (s : Scanner) : Scanner :=
  { s with families := s.families.insert family }

def datatypeFilter : String := "datatype"

def typesOption : String := "types"

/-- Applies a named filter; the accepted datatypes are separated by commas. -/
def addFilter (name : String) (options : SortedMap String String) (s : Scanner) :
    Except StoreError Scanner :=
  if name ≠ datatypeFilter then .error (.unknownFilter name)
  else match options.get? typesOption with
    | some types => .ok { s with datatypes := some ((Text.split ',' types).filter (· ≠ "")) }
    | none => .error (.missingFilterOption name typesOption)

def datatypeOf? (k : Key) : Option String := (Text.splitLast? '\x00' k.qualifier).map (·.2)

def accepts (s : Scanner) (k : Key) : Bool :=
  (s.families.isEmpty || k.family ∈ s.families) &&
    match s.datatypes with
    | some types => (datatypeOf? k).any (· ∈ types)
    | none => true

def reaches (s : Scanner) (k : Key) : Bool :=
  match s.position, s.range with
  | some p, _ => p.admits k
  | none, some r => !r.isAfter k
  | none, none => true

def isPast (s : Scanner) (k : Key) : Bool :=
  match s.range with
  | some r => r.isBefore k
  | none => false

/-- The next entry the scanner would return. -/
def head? (s : Scanner) : Option Entry :=
  ((s.entries.filter (s.reaches ·.1)).takeWhile (!s.isPast ·.1)).find? (s.accepts ·.1)

/-- Whether the table has answered all the reads it will. -/
def isSpent (s : Scanner) : Bool :=
  match s.readLimit s.table s.range with
  | some limit => limit ≤ s.reads
  | none => false

/-- Moves behind an entry; without one, to the end of the range if it has an end. -/
def move (s : Scanner) : Option Entry → Scanner
  | some e => { s with position := some (.past e.1) }
  | none =>
    match s.range.bind (·.stop?) with
    | some stop => { s with position := some (.at stop) }
    | none => s

def next (s : Scanner) : Except StoreError (Option Entry) × Scanner :=
  let counted := { s with reads := s.reads + 1 }
  if s.isSpent then (.error (.unavailable s.table), counted)
  else (.ok s.head?, counted.move s.head?)

/-- Moves ahead to the first entry not below a key. Keys before the range and keys
not above the last position leave the scanner where it is. -/
def seek (k : Key) (s : Scanner) : Scanner :=
  if s.range.any (·.isAfter k) then s
  else if s.position.any fun p => ¬ p.key < k then s
  else { s with position := some (.at k) }

inductive Ending where
  /-- As many entries were read as wanted. -/
  | enough
  | exhausted
  | failed (error : StoreError)
deriving DecidableEq

/-- At most the given number of entries, why there are no more of them, and the
scanner behind them. -/
def readMany : Nat → Scanner → List Entry × Ending × Scanner
  | 0, s => ([], .enough, s)
  | n + 1, s =>
    match s.next with
    | (.ok (some e), s) =>
      let (es, ending, s) := readMany n s
      (e :: es, ending, s)
    | (.ok none, s) => ([], .exhausted, s)
    | (.error e, s) => ([], .failed e, s)

/-- All entries left. Each read moves past an entry, so there are at most as many as
the table has. -/
def drain (s : Scanner) : List Entry × Ending × Scanner := s.readMany (s.entries.length + 1)

end Scanner

end ShardedSearch.Store
