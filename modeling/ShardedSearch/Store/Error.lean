/-! # Store errors

Why a table cannot be scanned.
-/

namespace ShardedSearch.Store

inductive StoreError where
  | tableNotFound (table : String)
  | unavailable (table : String)
  | unknownFilter (name : String)
  | missingFilterOption (filter option : String)
deriving DecidableEq

def StoreError.message : StoreError → String
  | .tableNotFound table => "Table not found: " ++ table
  | .unavailable table => "Table unavailable: " ++ table
  | .unknownFilter name => "Unknown server-side filter: " ++ name
  | .missingFilterOption filter option =>
    "Filter '" ++ filter ++ "' is missing option '" ++ option ++ "'"

end ShardedSearch.Store
