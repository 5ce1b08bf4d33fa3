import ShardedSearch.Store.Scanner

/-! # Stores

Named tables of sorted entries. A table may be unavailable, so that no scanner can
be opened on it, or fail after a number of reads. Scanners see the table as it was
when they were opened.
-/

namespace ShardedSearch

open Wire (Bytes)
open Store

structure Store where
  tables : SortedMap String Table
  unavailable : SortedSet String
  readLimit : ReadLimit

namespace Store

def empty : Store := ⟨.empty, .empty, fun _ _ => none⟩

instance : EmptyCollection Store := ⟨empty⟩

def create (table : String) (s : Store) : Store :=
  { s with tables := s.tables.insertWith (fun old _ => old) table .empty }

/-- Writes an entry, creating the table if need be. -/
def put (table : String) (k : Key) (value : Bytes) (s : Store) : Store :=
  { s with tables := s.tables.insert table (((s.tables.get? table).getD .empty).insert k value) }

def get? (table : String) (k : Key) (s : Store) : Option Bytes :=
  (s.tables.get? table).bind (·.get? k)

def count (table : String) (s : Store) : Nat := ((s.tables.get? table).getD .empty).size

def setUnavailable (table : String) (off : Bool) (s : Store) : Store :=
  { s with
    unavailable := if off then s.unavailable.insert table else s.unavailable.erase table }

def openScanner (table : String) (s : Store) : Except StoreError Scanner :=
  if table ∈ s.unavailable then .error (.unavailable table)
  else match s.tables.get? table with
    | some t => .ok (.ofTable table t s.readLimit)
    | none => .error (.tableNotFound table)

def scanRange (table : String) (families : List String) (range : Range) (s : Store) :
    Except StoreError (List Entry) :=
  match s.openScanner table with
  | .error e => .error e
  | .ok scanner =>
    match (families.foldl (fun sc f => sc.fetchFamily f) (scanner.setRange range)).drain with
    | (_, .failed e, _) => .error e
    | (es, _, _) => .ok es

/-- The entries of several ranges in the order of the ranges. -/
def scanEach (table : String) (families : List String) (s : Store) :
    List Range → Except StoreError (List Entry)
  | [] => .ok []
  | r :: rs =>
    match s.scanRange table families r with
    | .error e => .error e
    | .ok es => (scanEach table families s rs).map (es ++ ·)

/-- The entries of several ranges in key order. -/
def scanRanges (table : String) (ranges : List Range) (families : List String) (s : Store) :
    Except StoreError (List Entry) :=
  (s.scanEach table families ranges).map (·.mergeSort fun a b => ¬ b.1 < a.1)

end Store

end ShardedSearch
