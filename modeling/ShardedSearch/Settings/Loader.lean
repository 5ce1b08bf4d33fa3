import ShardedSearch.PlanError
import ShardedSearch.Settings.File
import ShardedSearch.Text.Blank

/-! # Loading settings

Settings come from a file, or are the defaults if there is none, and are then changed
by named values in the order given. Names that mean nothing are ignored.
-/

namespace ShardedSearch.Settings

/-- What is found where a settings file should be. -/
inductive File where
  | missing
  | unreadable
  | text (s : String)

def pathBytesMax : Nat := 4095

def nameBytesMax : Nat := 255

/-- What is found at a path where nothing has been put. Steps to the root, within a
directory or out of it lead to a directory, and no path has a zero character. -/
def File.elsewhere (path : String) : File :=
  if path = "" then .missing
  else if '\x00' ∈ path.toList ∨ pathBytesMax < path.utf8ByteSize then .unreadable
  else match (Text.split '/' path).filter (· ∉ ["", ".", ".."]) with
    | [] => .unreadable
    | name :: _ => if nameBytesMax < name.utf8ByteSize then .unreadable else .missing

structure Loader where
  /-- A path to use instead of the usual one. -/
  path : Option String
  changes : List (String × String)

namespace Loader

def variablePrefix : String := "SHARDPLAN_"

def pathVariable : String := "SHARDPLAN_CONFIG"

def ofVariables (vars : List (String × String)) : Loader :=
  ⟨((vars.filter (·.1 = pathVariable)).getLast?).map (·.2),
    vars.filter fun v => v.1 ≠ pathVariable && variablePrefix.toList.isPrefixOf v.1.toList⟩

def withChange (name value : String) (l : Loader) : Loader :=
  { l with changes := l.changes ++ [(name, value)] }

def shortName (name : String) : String :=
  if variablePrefix.toList.isPrefixOf name.toList then
    String.ofList (name.toList.drop variablePrefix.length)
  else name

def count (value : String) : Except PlanError Nat := (Number.unsigned value).mapError .number

def integer (value : String) : Except PlanError Int := (Number.signed value).mapError .number

/-- Yes or no, in one of several spellings. -/
def flag (name value : String) : Except PlanError Bool :=
  let lower := String.ofList (value.toList.map Char.toLower)
  if lower ∈ ["1", "true", "yes", "on"] then .ok true
  else if lower ∈ ["0", "false", "no", "off"] then .ok false
  else .error (.config (.noFlag name value))

/-- Items between commas, without blanks around them; empty ones do not count. -/
def items (value : String) : List String :=
  ((Text.split ',' value).map Text.trim).filter (· ≠ "")

def tableName? (value : String) : Option String := if value = "" then none else some value

def change (s : Settings) (name value : String) : Except PlanError Settings :=
  match shortName name with
  | "LOOKUP_THREADS" => do pure { s with lookup.threads := ← count value }
  | "BATCH_SIZE" => do pure { s with lookup.batchSize := ← count value }
  | "MAX_DEPTH" => do pure { s with lookup.maxDepth := ← count value }
  | "DATATYPES" => .ok { s with lookup.datatypes := items value }
  | "INDEX_THREADS" => do pure { s with pruning.threads := ← count value }
  | "DAY_INDEX_THRESHOLD" => do pure { s with pruning.dayThreshold := ← count value }
  | "YEAR_INDEX_THRESHOLD" => do pure { s with pruning.yearThreshold := ← integer value }
  | "SHARD_TABLE" => .ok { s with tables.shardIndex := value }
  | "DAY_INDEX_TABLE" => .ok { s with tables.dayIndex := tableName? value }
  | "YEAR_INDEX_TABLE" => .ok { s with tables.yearIndex := tableName? value }
  | "METADATA_TABLE" => .ok { s with tables.metadata := value }
  | "SHARD_ID_PATTERN" => .ok { s with plans.idPattern := value }
  | "SORT_BY_COUNTS" => do pure { s with plans.sortByCounts := ← flag name value }
  | _ => .ok s

/-- Loads the settings from the usual file or the one at the path; the first thing that is
wrong decides the error. -/
def load (l : Loader) (usual : File) (elsewhere : String → File) : Except PlanError Settings := do
  let s ← match l.path.elim usual elsewhere with
    | .missing => pure {}
    | .unreadable => throw .unreadableFile
    | .text s =>
      match ofText? s with
      | some s => pure s
      | none => throw .settingsFile
  l.changes.foldlM (fun s c => change s c.1 c.2) s

end Loader

end ShardedSearch.Settings
