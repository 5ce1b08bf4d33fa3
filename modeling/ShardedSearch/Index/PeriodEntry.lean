import ShardedSearch.Index.Bitmap
import ShardedSearch.Order.Map

/-! # Period entries

What the bitmap index holds about one day or one year: for every term the shards of
the day, or the days of the year, in which it occurs. Entries with the same key but
different terms do not compare.
-/

namespace ShardedSearch.Index

open Wire

structure PeriodEntry where
  /-- The day or the year. -/
  key : String
  terms : SortedMap String Bitmap
deriving DecidableEq

namespace PeriodEntry

/-- An entry without terms. -/
def ofKey (key : String) : PeriodEntry := ⟨key, .empty⟩

def get? (term : String) (e : PeriodEntry) : Option Bitmap := e.terms.get? term

def insert (term : String) (offsets : Bitmap) (e : PeriodEntry) : PeriodEntry :=
  { e with terms := e.terms.insertWith Bitmap.union term offsets }

/-- Adds the terms of another entry; the key stays. -/
def merge (e other : PeriodEntry) : PeriodEntry :=
  { e with terms := e.terms.mergeWith Bitmap.union other.terms }

/-- Whether no term has an offset. -/
def isEmpty (e : PeriodEntry) : Bool := e.terms.values.all Bitmap.isEmpty

/-- The least and the greatest offset of any term, zero if there is none. -/
def bounds (e : PeriodEntry) : Nat × Nat :=
  (((e.terms.values.filterMap Bitmap.min?).min?).getD 0,
    ((e.terms.values.filterMap Bitmap.max?).max?).getD 0)

/-- Order of two entries by key, if they compare. -/
def compare? (e other : PeriodEntry) : Option Ordering :=
  if e.key < other.key then some .lt
  else if other.key < e.key then some .gt
  else if e.terms = other.terms then some .eq
  else none

def encodeTerm (t : String × Bitmap) : Bytes := encode t.1 ++ encodeBlock t.2.toBytes

/-- The given number of terms with their bitmaps, none of them twice. -/
def decodeTerms : Nat → SortedMap String Bitmap → Bytes →
    Except WireError (SortedMap String Bitmap × Bytes)
  | 0, terms, bs => .ok (terms, bs)
  | n + 1, terms, bs => do
    let (term, bs) ← decode bs
    let (block, bs) ← decodeBlock .bitmap bs
    if terms.contains term then throw (.duplicateTerm term)
    decodeTerms n (terms.insert term (.ofBytes block)) bs

/-- A term and its bitmap take at least two bytes, so there are at most half as many
terms as bytes left. The bytes that a larger count would take are told as a 64-bit word. -/
def decodeTermMap (bs : Bytes) : Except WireError (SortedMap String Bitmap × Bytes) :=
  match Varint.decode bs with
  | .ok (n, rest) =>
    if rest.length / 2 < n then .error (.truncated .termMap (2 * n % UInt64.size) rest.length)
    else decodeTerms n .empty rest
  | .error e => .error e

instance : Form PeriodEntry where
  encode e := encode e.key ++ Varint.encode e.terms.size ++ e.terms.toList.flatMap encodeTerm
  decode bs := do
    let (key, bs) ← decode bs
    let (terms, bs) ← decodeTermMap bs
    pure (⟨key, terms⟩, bs)
  size e := size e.key + Varint.size e.terms.size +
    (e.terms.toList.map fun t => size t.1 + blockSize t.2.toBytes.length).foldr (· + ·) 0

end PeriodEntry

end ShardedSearch.Index
