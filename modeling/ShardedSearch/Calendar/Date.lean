/-! # Dates

Days of the proleptic Gregorian calendar, given by year and day of the year. The
calendar has a first and a last year; its last day has no successor, and a run of
days stops before it.
-/

namespace ShardedSearch.Calendar

def firstYear : Int := -262143

def lastYear : Int := 262142

def isLeap (year : Int) : Bool := year % 4 = 0 && (year % 100 ≠ 0 || year % 400 = 0)

def yearLength (year : Int) : Nat := if isLeap year then 366 else 365

def monthLengths (year : Int) : List Nat :=
  [31, if isLeap year then 29 else 28, 31, 30, 31, 30, 31, 31, 30, 31, 30, 31]

theorem sum_monthLengths (year : Int) : (monthLengths year).foldr (· + ·) 0 = yearLength year := by
  cases h : isLeap year <;> simp [monthLengths, yearLength, h]

/-- A day: its year and its place in that year, counted from one. -/
structure Date where
  year : Int
  ordinal : Nat
  year_mem : firstYear ≤ year ∧ year ≤ lastYear
  ordinal_mem : 1 ≤ ordinal ∧ ordinal ≤ yearLength year

namespace Date

theorem ext_iff' {d e : Date} : d = e ↔ d.year = e.year ∧ d.ordinal = e.ordinal := by
  cases d; cases e; simp

instance : DecidableEq Date := fun _ _ => decidable_of_iff _ ext_iff'.symm

/-- Dates in the order of the calendar. -/
instance : LE Date := ⟨fun d e => d.year < e.year ∨ (d.year = e.year ∧ d.ordinal ≤ e.ordinal)⟩

instance (d e : Date) : Decidable (d ≤ e) :=
  inferInstanceAs (Decidable (d.year < e.year ∨ (d.year = e.year ∧ d.ordinal ≤ e.ordinal)))

theorem le_def {d e : Date} :
    d ≤ e ↔ d.year < e.year ∨ (d.year = e.year ∧ d.ordinal ≤ e.ordinal) := Iff.rfl

/-- The given day of a year, if the year has it. -/
def ofOrdinal? (year : Int) (ordinal : Nat) : Option Date :=
  if h : (firstYear ≤ year ∧ year ≤ lastYear) ∧ (1 ≤ ordinal ∧ ordinal ≤ yearLength year) then
    some ⟨year, ordinal, h.1, h.2⟩
  else none

theorem ofOrdinal?_self (d : Date) : ofOrdinal? d.year d.ordinal = some d := by
  simp [ofOrdinal?, d.year_mem, d.ordinal_mem]

/-- The given day of a month, if the calendar has it. -/
def ofMonthDay? (year : Int) (month day : Nat) : Option Date :=
  match (monthLengths year)[month - 1]? with
  | some length =>
    if 1 ≤ month ∧ 1 ≤ day ∧ day ≤ length then
      ofOrdinal? year (((monthLengths year).take (month - 1)).foldr (· + ·) 0 + day)
    else none
  | none => none

/-- Month and day of the month of a day of the year, walking the months left. -/
def monthDayFrom (month : Nat) : List Nat → Nat → Nat × Nat
  | [], n => (month, n)
  | length :: rest, n =>
    if n ≤ length then (month, n) else monthDayFrom (month + 1) rest (n - length)

def monthDay (d : Date) : Nat × Nat := monthDayFrom 1 (monthLengths d.year) d.ordinal

/-- Number of days before a year, counted from the start of year one. -/
def daysBefore (year : Int) : Int :=
  365 * (year - 1) + (year - 1) / 4 - (year - 1) / 100 + (year - 1) / 400

def number (d : Date) : Int := daysBefore d.year + d.ordinal

theorem isLeap_iff {year : Int} :
    isLeap year = true ↔ year % 4 = 0 ∧ (year % 100 ≠ 0 ∨ year % 400 = 0) := by
  simp [isLeap]

theorem daysBefore_succ (year : Int) :
    daysBefore (year + 1) = daysBefore year + yearLength year := by
  unfold daysBefore yearLength
  by_cases h : isLeap year = true
  · have h' := isLeap_iff.mp h
    rw [if_pos h]
    omega
  · have h' := mt isLeap_iff.mpr h
    rw [if_neg h]
    omega

def next? (d : Date) : Option Date :=
  if h : d.ordinal < yearLength d.year then
    some ⟨d.year, d.ordinal + 1, d.year_mem, by omega, h⟩
  else if h : d.year < lastYear then
    some ⟨d.year + 1, 1, by have := d.year_mem; omega, Nat.le_refl 1,
      by unfold yearLength; split <;> decide⟩
  else none

theorem number_of_next? {d e : Date} (h : d.next? = some e) : e.number = d.number + 1 := by
  unfold next? at h
  split at h
  · obtain ⟨rfl⟩ := h
    simp only [number]; omega
  · split at h
    · obtain ⟨rfl⟩ := h
      have := d.ordinal_mem
      have := daysBefore_succ d.year
      simp only [number]; omega
    · exact absurd h (by simp)

/-- At most the given number of days from a day on, each of which has a successor. -/
def run (d : Date) : Nat → List Date
  | 0 => []
  | n + 1 =>
    match d.next? with
    | some e => d :: run e n
    | none => []

/-- How many days a range has, both ends included. -/
def daysTo (b e : Date) : Nat := (e.number - b.number + 1).toNat

def upTo (b e : Date) : List Date := b.run (b.daysTo e)

end Date

end ShardedSearch.Calendar
