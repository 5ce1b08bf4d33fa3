import ShardedSearch.Store.Key

/-! # Key ranges

Ranges of keys with either end included or not; a range without an end runs to the
end of the table. All rows with a given start form a range that stops at the least
row above them.
-/

namespace ShardedSearch.Store

/-- The next character, past the gap in the code points. -/
def nextChar? (c : Char) : Option Char :=
  if c.toNat = 0xD7FF then some '\ue000'
  else if c.toNat = 0x10FFFF then none
  else some (Char.ofNat (c.toNat + 1))

/-- The least text above all texts with the given start, if there is one. -/
def aboveStart? : List Char → Option (List Char)
  | [] => none
  | c :: cs =>
    match aboveStart? cs with
    | some b => some (c :: b)
    | none => (nextChar? c).map ([·])

def rowAbove? (start : String) : Option String := (aboveStart? start.toList).map String.ofList

structure Range where
  start : Key
  startIncluded : Bool
  /-- Without an end the range runs to the end of the table. -/
  stop? : Option Key
  stopIncluded : Bool
deriving DecidableEq

namespace Range

def onward (start : Key) : Range := ⟨start, true, none, false⟩

/-- From one key up to another, without it. -/
def halfOpen (start stop : Key) : Range := ⟨start, true, some stop, false⟩

def row (r : String) : Range := halfOpen (.ofRow r) (.ofRow (r ++ "\x00"))

/-- From a key to the last row with the given start. -/
def fromTo (start : Key) (rowStart : String) : Range :=
  match rowAbove? rowStart with
  | some stop => halfOpen start (.ofRow stop)
  | none => onward start

def rowsFrom (rowStart : String) : Range := fromTo (.ofRow rowStart) rowStart

variable (r : Range)

def isAfter (k : Key) : Bool := if r.startIncluded then k < r.start else ¬ r.start < k

def isBefore (k : Key) : Bool :=
  match r.stop? with
  | some stop => if r.stopIncluded then stop < k else ¬ k < stop
  | none => false

def contains (k : Key) : Bool := !r.isAfter k && !r.isBefore k

/-- Whether the ends leave no room for a key. -/
def isEmpty : Bool :=
  match r.stop? with
  | some stop => if r.start = stop then !(r.startIncluded && r.stopIncluded) else stop < r.start
  | none => false

def text : String :=
  (if r.startIncluded then "[" else "(") ++ r.start.text ++ ", " ++
    match r.stop? with
    | some stop => stop.text ++ if r.stopIncluded then "]" else ")"
    | none => "+inf)"

end Range

end ShardedSearch.Store
