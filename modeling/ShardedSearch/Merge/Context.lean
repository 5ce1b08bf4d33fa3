/-! # Contexts

How far the shards of a stream can be trusted.
-/

namespace ShardedSearch.Merge

inductive Context where
  /-- Not looked up yet. -/
  | pending
  /-- The index knows at least one shard. -/
  | present
  /-- The index knows that there is none. -/
  | absent
  /-- Some parts are known to the index, some are not. -/
  | mixed
  /-- Takes no part. -/
  | skipped
  /-- Not known to the index; assumed to be everywhere. -/
  | delayed
deriving DecidableEq

def Context.label : Context → String
  | .pending => "INITIALIZED"
  | .present => "PRESENT"
  | .absent => "ABSENT"
  | .mixed => "VARIABLE"
  | .skipped => "NO_OP"
  | .delayed => "DELAYED"

end ShardedSearch.Merge
