import ShardedSearch.Calendar.Date
import ShardedSearch.Number.Integer
import ShardedSearch.Text.Blank

/-! # Dates as text

A day is written as year, month and day of the month without separators. Reading
takes the three numbers in turn, each after optional blanks; only a signed year may
have more than four digits.
-/

namespace ShardedSearch.Calendar

open Text (trimStart)

inductive DateError where
  | outOfRange
  | invalid
  | tooShort
  | tooLong
deriving DecidableEq

def DateError.message : DateError → String
  | .outOfRange => "input is out of range"
  | .invalid => "input contains invalid characters"
  | .tooShort => "premature end of input"
  | .tooLong => "trailing input"

/-- A number with zeros in front, up to a width. -/
def padded (width n : Nat) : List Char :=
  let ds := Nat.toDigits 10 n
  List.replicate (width - ds.length) '0' ++ ds

/-- A year of four digits has no sign, any other year has one. -/
def yearText (year : Int) : List Char :=
  if 0 ≤ year ∧ year ≤ 9999 then padded 4 year.natAbs
  else (if year < 0 then '-' else '+') :: padded 4 year.natAbs

namespace Date

def chars (d : Date) : List Char :=
  yearText d.year ++ padded 2 d.monthDay.1 ++ padded 2 d.monthDay.2

def text (d : Date) : String := String.ofList d.chars

end Date

def digitsValue (cs : List Char) : Nat := cs.foldl (fun n c => 10 * n + Number.digitValue c) 0

/-- The number at the start of the text, of at most the given number of digits. -/
def takeNumber (width : Nat) (cs : List Char) : Except DateError (Nat × List Char) :=
  match cs with
  | [] => .error .tooShort
  | c :: _ =>
    if c.isDigit then
      let ds := (cs.take width).takeWhile Char.isDigit
      .ok (digitsValue ds, cs.drop ds.length)
    else .error .invalid

/-- Years that fit a signed 32-bit word. -/
def yearFits (year : Int) : Bool :=
  Int32.minValue.toInt ≤ year && year ≤ Int32.maxValue.toInt

def takeYear (cs : List Char) : Except DateError (Int × List Char) := do
  let (year, rest) ← match trimStart cs with
    | '-' :: cs => do
      let (n, rest) ← takeNumber cs.length cs
      pure (-(n : Int), rest)
    | '+' :: cs => do
      let (n, rest) ← takeNumber cs.length cs
      pure ((n : Int), rest)
    | cs => do
      let (n, rest) ← takeNumber 4 cs
      pure ((n : Int), rest)
  if yearFits year then pure (year, rest) else throw .outOfRange

/-- A number of one or two digits between one and a limit. -/
def takeField (limit : Nat) (cs : List Char) : Except DateError (Nat × List Char) := do
  let (n, rest) ← takeNumber 2 (trimStart cs)
  if 1 ≤ n ∧ n ≤ limit then pure (n, rest) else throw .outOfRange

def Date.ofChars (cs : List Char) : Except DateError Date := do
  let (year, cs) ← takeYear cs
  let (month, cs) ← takeField 12 cs
  let (day, cs) ← takeField 31 cs
  if cs ≠ [] then throw .tooLong
  match ofMonthDay? year month day with
  | some d => pure d
  | none => throw .outOfRange

def Date.ofText (s : String) : Except DateError Date := ofChars s.toList

end ShardedSearch.Calendar
