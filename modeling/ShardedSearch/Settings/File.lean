import ShardedSearch.Settings.Basic
import ShardedSearch.Settings.Document

/-! # Settings from a file

Every section is a table, or an array of its fields in order; what is not given keeps
its default, and what is not known is ignored.
-/

namespace ShardedSearch.Settings

namespace Value

def text? : Value → Option String
  | text s => some s
  | _ => none

def count? : Value → Option Nat
  | integer n => if 0 ≤ n then some n.toNat else none
  | _ => none

def integer? : Value → Option Int
  | integer n => some n
  | _ => none

def flag? : Value → Option Bool
  | flag b => some b
  | _ => none

def texts? : Value → Option (List String)
  | array vs => vs.mapM text?
  | _ => none

end Value

/-- The field of a section with a name and a position, or its default; none if the file
has something else in its place. -/
def Document.field? {α : Type} (d : Document) (part name : String) (position : Nat)
    (read : Value → Option α) (default : α) : Option α :=
  match d.slot [part] with
  | .value (.array vs) =>
    match vs[position]? with
    | some v => read v
    | none => some default
  | .value _ => none
  | _ =>
    match d.slot [part, name] with
    | .value v => read v
    | .table => none
    | .nothing => some default

def ofDocument? (d : Document) : Option Settings := do
  let s : Settings := {}
  let tables : TableSettings := {
    shardIndex := ← d.field? "tables" "shard_index" 0 Value.text? s.tables.shardIndex
    dayIndex := ← d.field? "tables" "day_index" 1 (·.text?.map some) s.tables.dayIndex
    yearIndex := ← d.field? "tables" "year_index" 2 (·.text?.map some) s.tables.yearIndex
    metadata := ← d.field? "tables" "metadata" 3 Value.text? s.tables.metadata }
  let lookup : LookupSettings := {
    threads := ← d.field? "lookup" "num_index_lookup_threads" 0 Value.count? s.lookup.threads
    batchSize := ← d.field? "lookup" "max_index_batch_size" 1 Value.count? s.lookup.batchSize
    maxDepth := ← d.field? "lookup" "max_depth_threshold" 2 Value.count? s.lookup.maxDepth
    datatypes := ← d.field? "lookup" "datatypes" 3 Value.texts? s.lookup.datatypes
    evaluatesExceeded := ← d.field? "lookup" "can_handle_exceeded_value_threshold" 4 Value.flag?
      s.lookup.evaluatesExceeded }
  let pruning : PruningSettings := {
    threads := ← d.field? "pruning" "num_index_threads" 0 Value.count? s.pruning.threads
    dayThreshold := ← d.field? "pruning" "day_index_threshold" 1 Value.count?
      s.pruning.dayThreshold
    yearThreshold := ← d.field? "pruning" "year_index_threshold" 2 Value.integer?
      s.pruning.yearThreshold }
  let plans : PlanSettings := {
    idPattern := ← d.field? "plans" "shard_id_pattern" 0 Value.text? s.plans.idPattern
    termCounts := ← d.field? "plans" "collect_term_counts" 1 Value.flag? s.plans.termCounts
    fieldCounts := ← d.field? "plans" "collect_field_counts" 2 Value.flag? s.plans.fieldCounts
    sortByCounts := ← d.field? "plans" "sort_by_counts" 3 Value.flag? s.plans.sortByCounts }
  some ⟨tables, lookup, pruning, plans⟩

def ofText? (s : String) : Option Settings := Document.ofText? s >>= ofDocument?

end ShardedSearch.Settings
