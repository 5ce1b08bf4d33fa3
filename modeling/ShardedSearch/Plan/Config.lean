import ShardedSearch.Order.Set
import ShardedSearch.Pattern.Parser
import ShardedSearch.PlanError
import ShardedSearch.Query.Terms
import ShardedSearch.Settings.Basic

/-! # Planning configurations

What a planning run needs besides the query and the store: settings, the days to plan
and what is known about fields. A configuration is checked once, when it is made.
-/

namespace ShardedSearch

open Calendar (Date)

structure PlanRequest where
  settings : Settings := {}
  labels : List String := []
  /-- First and last day, as text. -/
  dates : Option (String × String) := none
  indexed : List String := []
  indexOnly : List String := []
  known : List String := []

structure PlanConfig where
  settings : Settings
  /-- Visibility labels of the run. -/
  labels : SortedSet String
  first : Date
  last : Date
  first_le_last : first ≤ last
  /-- Fields that the index answers. -/
  indexed : SortedSet String
  /-- Fields that only the index has. -/
  indexOnly : SortedSet String
  /-- All fields of the data; if there are none, any field may be in it. -/
  known : SortedSet String
  /-- Shard ids without an occurrence get no plan. -/
  idPattern : Pattern

namespace PlanConfig

def date (s : String) : Except PlanError Date := (Date.ofText s).mapError .date

def check (s : Settings) : Except PlanError Unit :=
  if s.lookup.batchSize = 0 then throw (.config .zeroBatchSize)
  else if s.lookup.maxDepth = 0 then throw (.config .zeroMaxDepth)
  else if s.pruning.yearThreshold < -1 then
    throw (.config (.yearThreshold s.pruning.yearThreshold))
  else pure ()

/-- Makes a configuration; the first thing that is wrong decides the error. -/
def ofRequest (r : PlanRequest) : Except PlanError PlanConfig := do
  let some (first, last) := r.dates | throw (.config .missingDates)
  let first ← date first
  let last ← date last
  if h : first ≤ last then
    check r.settings
    match Pattern.ofText? r.settings.plans.idPattern with
    | some pattern =>
      pure ⟨r.settings, .ofList r.labels, first, last, h, .ofList (r.indexed ++ r.indexOnly),
        .ofList r.indexOnly, .ofList r.known, pattern⟩
    | none => throw (.pattern r.settings.plans.idPattern)
  else throw (.config (.emptyRange first last))

variable (c : PlanConfig)

def firstDay : String := c.first.text

def lastDay : String := c.last.text

def days : List String := (c.first.upTo c.last).map Date.text

def dayCount : Nat := c.first.daysTo c.last

/-- Number of calendar years with a day to plan. -/
def yearCount : Nat := (c.last.year - c.first.year + 1).toNat

def isIndexed (field : String) : Bool := field ∈ c.indexed

def isIndexOnly (field : String) : Bool := field ∈ c.indexOnly

def isKnown (field : String) : Bool :=
  c.known.isEmpty || field ∈ c.known || field ∈ c.indexed

def admits (id : String) : Bool := c.idPattern.occursIn id

end PlanConfig

end ShardedSearch
