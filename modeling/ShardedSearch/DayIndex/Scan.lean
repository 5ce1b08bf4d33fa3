import ShardedSearch.Calendar.Text
import ShardedSearch.Index.Layout
import ShardedSearch.Index.PeriodEntry
import ShardedSearch.Query.Terms
import ShardedSearch.Store.Basic

/-! # Scanning the bitmap indexes

The bitmaps of the wanted terms in one day or one year. A day is scanned once from its
first wanted term on; at a term that is not wanted the scan jumps to the next one that is.
-/

namespace ShardedSearch.DayIndex

open Calendar (Date)
open Index (Bitmap Layout.periodRow Layout.ofPeriodRow? PeriodEntry)
open Store (Key Range Scanner StoreError)
open Wire (Bytes)

/-- Where the wanted fields of a value in a period are found. -/
def keyOf (period value field : String) : Key := ⟨Layout.periodRow period value, field, ""⟩

/-- The next wanted term above a value and field: a higher field of the value, or the
first field of a higher value. -/
def nextWanted? (terms : Terms) (period value field : String) : Option Key :=
  match (terms.get? value).bind (·.next? field) with
  | some next => some (keyOf period value next)
  | none =>
    match terms.next? value with
    | some (next, fields) => fields.toList.head?.map (keyOf period next)
    | none => none

def firstWanted? (terms : Terms) (period : String) : Option Key :=
  match terms.toList with
  | (value, fields) :: _ => fields.toList.head?.map (keyOf period value)
  | [] => none

def addIfWanted (terms : Terms) (e : PeriodEntry) (k : Key) (value : String) (bits : Bytes) :
    Option PeriodEntry :=
  if terms.has value k.family then
    some (e.insert (Query.equals k.family value).text (.ofBytes bits))
  else none

/-- Result of a scan, and how often the scan has jumped. -/
structure ScanResult where
  entry : Except StoreError (Option PeriodEntry)
  jumps : Nat

/-- An entry without offsets is as good as none. -/
def PeriodEntry.orNone (e : PeriodEntry) : Option PeriodEntry := if e.isEmpty then none else some e

/-- Reads on from a scanner. Each round reads an entry, so there are at most as many rounds
as the table has entries, and one to find the end. -/
def readOn (terms : Terms) (period : String) : Nat → Nat → Scanner → PeriodEntry → ScanResult
  | 0, jumps, _, e => ⟨.ok (PeriodEntry.orNone e), jumps⟩
  | n + 1, jumps, s, e =>
    match s.next with
    | (.error err, _) => ⟨.error err, jumps⟩
    | (.ok none, _) => ⟨.ok (PeriodEntry.orNone e), jumps⟩
    | (.ok (some (k, bits)), s) =>
      match Layout.ofPeriodRow? k.row with
      | none => readOn terms period n jumps s e
      | some (_, value) =>
        match addIfWanted terms e k value bits with
        | some e => readOn terms period n jumps s e
        | none =>
          match nextWanted? terms period value k.family with
          | some target => readOn terms period n (jumps + 1) (s.seek target) e
          | none => ⟨.ok (PeriodEntry.orNone e), jumps⟩

def scanDay (store : Store) (table : String) (terms : Terms) (day : String) : ScanResult :=
  match firstWanted? terms day with
  | none => ⟨.ok none, 0⟩
  | some start =>
    match store.openScanner table with
    | .error e => ⟨.error e, 0⟩
    | .ok s =>
      readOn terms day (s.entries.length + 1) 0
        (s.setRange (.fromTo start (Layout.periodRow day ""))) (.ofKey day)

/-- Scans a year of the year index, all values at once; offsets are days of the year. -/
def scanYear (store : Store) (table : String) (terms : Terms) (year : Int) :
    Except StoreError (Option PeriodEntry) := do
  let period := toString year
  let fields := (terms.values.foldl SortedSet.union .empty).toList
  let rows := terms.keys.toList.map fun value => Range.row (Layout.periodRow period value)
  let entries ← store.scanRanges table rows fields
  let e := entries.foldl (fun e entry =>
    match Layout.ofPeriodRow? entry.1.row with
    | some (_, value) => (addIfWanted terms e entry.1 value entry.2).getD e
    | none => e) (PeriodEntry.ofKey period)
  pure (PeriodEntry.orNone e)

/-- The days between two dates that any term of a year's entry has. -/
def daysOfEntry (year : Int) (e : PeriodEntry) (first last : Date) : List String :=
  let days := e.terms.values.foldl Bitmap.union .empty
  ((days.toList.filterMap (Date.ofOrdinal? year)).filter fun d => first ≤ d ∧ d ≤ last).map
    Date.text

/-- The days of a year between two dates. -/
def daysOfYear (year : Int) (first last : Date) : List String :=
  let start := (Date.ofMonthDay? year 1 1).filter fun d => ¬ d ≤ first
  let stop := (Date.ofMonthDay? year 12 31).filter fun d => ¬ last ≤ d
  ((start.getD first).upTo (stop.getD last)).map Date.text

end ShardedSearch.DayIndex
