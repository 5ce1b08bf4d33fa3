/-! # Wire errors

Why bytes are not the form of a value.
-/

namespace ShardedSearch.Wire

inductive Part where
  | string
  | byteArray
  | bool
  | bitmap
  | uidList
  | termMap
deriving DecidableEq

def Part.name : Part → String
  | .string => "string"
  | .byteArray => "byte array"
  | .bool => "bool"
  | .bitmap => "bitmap"
  | .uidList => "uid list"
  | .termMap => "term map"

inductive WireError where
  | truncated (part : Part) (expected found : Nat)
  | incompleteVarint
  | varintOverflow
  | invalidUtf8
  | trailingBytes (count : Nat)
  | duplicateTerm (term : String)
deriving DecidableEq

def WireError.message : WireError → String
  | .truncated part expected found =>
    "truncated input: expected " ++ toString expected ++ " more bytes for " ++ part.name ++
      ", found " ++ toString found
  | .incompleteVarint => "incomplete varint"
  | .varintOverflow => "varint too long"
  | .invalidUtf8 => "invalid utf-8 in string field"
  | .trailingBytes count => toString count ++ " trailing bytes after value"
  | .duplicateTerm term => "term '" ++ term ++ "' appears twice in one entry"

end ShardedSearch.Wire
