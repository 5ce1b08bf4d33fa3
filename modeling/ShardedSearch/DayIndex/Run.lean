import ShardedSearch.DayIndex.Prune
import ShardedSearch.DayIndex.Scan
import ShardedSearch.DayIndex.Sequencer
import ShardedSearch.DayIndex.Statistics
import ShardedSearch.Lookup.Enumeration

/-! # Runs over the day index

The plans of a query from the bitmaps of its days, in the order of days and offsets. The
days are those of the calendar, or for long ranges those in which the year index has a
wanted term. A day whose scan fails gets a plan for the whole day with the whole query, a
year whose scan fails counts with all of its days. The entry of a day comes from its scan in
its byte form.
-/

namespace ShardedSearch

open Index (PeriodEntry ShardCounts)
open Store (StoreError)
open Wire (Bytes)

namespace DayIndex

/-- What is known of a day after its scan. -/
structure Outcome where
  day : String
  entry : Except StoreError (Option Bytes)

/-- Whether the range is long enough for the year index. -/
def yearTable? (c : PlanConfig) : Option String :=
  c.settings.tables.yearIndex.filter fun _ =>
    decide (0 ≤ c.settings.pruning.yearThreshold) &&
      decide (c.settings.pruning.yearThreshold < c.dayCount)

def years (c : PlanConfig) : List Int :=
  (List.range c.yearCount).map fun (n : Nat) => c.first.year + n

/-- The days of a year to be scanned, and the statistics with that year. -/
def daysOf (c : PlanConfig) (year : Int) (stats : Statistics) :
    Except StoreError (Option PeriodEntry) → List String × Statistics
  | .ok (some e) => (daysOfEntry year e c.first c.last, stats.addYear true)
  | .ok none => ([], stats.addYear false)
  | .error _ => (daysOfYear year c.first c.last, stats)

def daysByYear (store : Store) (c : PlanConfig) (table : String) (terms : Terms) :
    List Int → Statistics → List String × Statistics
  | [], stats => ([], stats)
  | year :: rest, stats =>
    let (days, stats) := daysOf c year stats (scanYear store table terms year)
    let (others, stats) := daysByYear store c table terms rest stats
    (days ++ others, stats)

def daysToScan (store : Store) (c : PlanConfig) (terms : Terms) : List String × Statistics :=
  match yearTable? c with
  | some table => daysByYear store c table terms (years c) {}
  | none => (c.days, {})

def outcome (store : Store) (table : String) (terms : Terms) (day : String) : Outcome :=
  ⟨day, (scanDay store table terms day).entry.map (Option.map Wire.encode)⟩

/-- Counts a scan that did not fail. -/
def count (stats : Statistics) (o : Outcome) : Statistics :=
  match o.entry with
  | .ok e => stats.addDay e.isSome
  | .error _ => stats

def plansOfOutcome (c : PlanConfig) (q : Query) (wanted : SortedSet String) (o : Outcome) :
    Except PlanError (List ShardPlan) :=
  match o.entry with
  | .ok (some bytes) =>
    match Wire.ofBytes bytes with
    | .ok e => .ok (plansOf c q wanted e)
    | .error e => .error (.wire e)
  | .ok none => .ok []
  | .error _ => .ok (ShardPlan.ofShard? c o.day q).toList

end DayIndex

open DayIndex

/-- The plans of a query that are not out yet. -/
structure DayRun where
  /-- The plans of days that are scanned, then those of the others. -/
  pending : List ShardPlan
  /-- Without a term to look up, days are planned as they are. -/
  unscanned : List ShardPlan
  outcomes : Sequencer Outcome
  plansOf : Outcome → Except PlanError (List ShardPlan)
  statistics : Statistics
  closed : Bool

namespace DayRun

/-- Starts a run; scans are numbered in the order of their days. -/
def start (store : Store) (c : PlanConfig) (q : Query) : Except PlanError DayRun :=
  let terms := q.indexedTerms c.indexed
  match c.settings.tables.dayIndex with
  | none => .error (.config .noDayIndex)
  | some table =>
    if terms.isEmpty then
      .ok ⟨[], (Lookup.wholeDays q c.days).filterMap (ShardPlan.ofCandidate? c), .ofArrivals [],
        plansOfOutcome c q .empty, {}, false⟩
    else
      let (days, stats) := daysToScan store c terms
      let outcomes := days.map (outcome store table terms)
      .ok ⟨[], [], .ofArrivals ((List.range outcomes.length).zip outcomes),
        plansOfOutcome c q terms.wanted, outcomes.foldl count stats, false⟩

def close (r : DayRun) : DayRun :=
  if r.closed then r
  else { r with pending := [], unscanned := [], outcomes := .ofArrivals [], closed := true }

/-- The next plan, or the error that ends the run, of the given number of scanned days. -/
def nextWithin : Nat → DayRun → Option (Except PlanError ShardPlan) × DayRun
  | n, r =>
    match r.pending with
    | p :: ps => (some (.ok p), { r with pending := ps, statistics := r.statistics.addShard })
    | [] =>
      if r.closed then (none, r)
      else match r.unscanned with
        | p :: ps => (some (.ok p), { r with unscanned := ps, statistics := r.statistics.addShard })
        | [] =>
          match n, r.outcomes.next? with
          | n + 1, some (o, outcomes) =>
            match r.plansOf o with
            | .ok plans => nextWithin n { r with pending := plans, outcomes }
            | .error e => (some (.error e), r.close)
          | _, _ => (none, r.close)

def next (r : DayRun) : Option (Except PlanError ShardPlan) × DayRun :=
  r.nextWithin r.outcomes.size

/-- The plans of scanned days, up to the first day without an entry that can be read. -/
def plansOfAll (plansOf : Outcome → Except PlanError (List ShardPlan)) :
    List Outcome → List (Except PlanError ShardPlan)
  | [] => []
  | o :: os =>
    match plansOf o with
    | .ok plans => plans.map .ok ++ plansOfAll plansOf os
    | .error e => [.error e]

/-- The plans that are left, and the error that ends them. -/
def left (r : DayRun) : List (Except PlanError ShardPlan) :=
  (r.pending ++ r.unscanned).map .ok ++ plansOfAll r.plansOf r.outcomes.drain

end DayRun

end ShardedSearch
