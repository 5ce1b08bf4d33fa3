import ShardedSearch.Calendar.Text
import ShardedSearch.Number.Integer
import ShardedSearch.Store.Error
import ShardedSearch.Wire.Error

/-! # Planning errors

Why a query cannot be planned. Only errors of the query itself are fatal: no other run
can plan it either.
-/

namespace ShardedSearch

/-- What is wrong with settings that can be read. -/
inductive ConfigError where
  | missingDates
  | emptyRange (first last : Calendar.Date)
  | zeroBatchSize
  | zeroMaxDepth
  | yearThreshold (days : Int)
  | noFlag (name value : String)
  | noDayIndex
deriving DecidableEq

def ConfigError.message : ConfigError → String
  | .missingDates => "missing begin date"
  | .emptyRange first last => "begin date " ++ first.text ++ " is after end date " ++ last.text
  | .zeroBatchSize => "max_index_batch_size must be positive"
  | .zeroMaxDepth => "max_depth_threshold must be positive"
  | .yearThreshold days =>
    "year_index_threshold must be -1 or a day count, got " ++ toString days
  | .noFlag name value => name ++ ": expected a boolean, got '" ++ value ++ "'"
  | .noDayIndex => "day index pruning requires a day index table"

inductive PlanError where
  | depthExceeded (depth max : Nat)
  | unboundedField (field : String)
  | wire (error : Wire.WireError)
  | store (error : Store.StoreError)
  | date (error : Calendar.DateError)
  | number (error : Number.IntegerError)
  | pattern (text : String)
  | settingsFile
  | unreadableFile
  | config (error : ConfigError)
  | poolClosed (pool : String)
  /-- A worker was lost before it had looked a clause up. -/
  | abandoned
  | other (reason : String)
deriving DecidableEq

namespace PlanError

def message : PlanError → String
  | depthExceeded depth max =>
    "Query depth " ++ toString depth ++ " exceeds the maximum of " ++ toString max
  | unboundedField field => "Index-only field '" ++ field ++
    "' cannot be bounded by the index and would require a full table scan"
  | wire e => "Codec error: " ++ e.message
  | store e => "Store error: " ++ e.message
  | date e => "Invalid date: " ++ e.message
  | number e => "Invalid number: " ++ e.message
  | pattern text => "Invalid pattern: " ++ text
  | settingsFile => "Malformed settings file"
  | unreadableFile => "IO error"
  | config e => "Configuration error: " ++ e.message
  | poolClosed pool => "Worker pool '" ++ pool ++ "' is shut down"
  | abandoned => "Internal error: child initialization was abandoned"
  | other reason => "Internal error: " ++ reason

/-- Whether the query itself is at fault. -/
def isFatal : PlanError → Bool
  | depthExceeded .. => true
  | unboundedField _ => true
  | _ => false

end PlanError

/-- Why a request has no answer. Only an error comes back to who asked. -/
inductive Failure where
  | error (e : PlanError)
  /-- More memory was asked for than there can be. -/
  | unwound
  /-- There is no end to the wait for an answer. -/
  | stuck
deriving DecidableEq

end ShardedSearch
