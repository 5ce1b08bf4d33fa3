import ShardedSearch.Order.Map
import ShardedSearch.Query.Text

/-! # Indexed terms

The equalities of a query that the index can answer, and the test that a query
consists of nothing else.
-/

namespace ShardedSearch

/-- Values to look up, each with the fields to look in. -/
abbrev Terms := SortedMap String (SortedSet String)

namespace Terms

def add (terms : Terms) (field value : String) : Terms :=
  terms.insertWith SortedSet.union value (SortedSet.empty.insert field)

def pairs (terms : Terms) : List (String × String) :=
  terms.toList.flatMap fun e => e.2.toList.map (·, e.1)

/-- The texts of all terms, as they key bitmap entries. -/
def wanted (terms : Terms) : SortedSet String :=
  .ofList (terms.pairs.map fun p => (Query.equals p.1 p.2).text)

def has (terms : Terms) (value field : String) : Bool :=
  match terms.get? value with
  | some fields => field ∈ fields
  | none => false

end Terms

namespace Query

/-- Whether the index answers equalities on a field. -/
def isLookedUp (indexed : SortedSet String) (field : String) : Bool :=
  field ∈ indexed && !isUnfielded field

mutual

/-- Field and value of the indexed equalities outside markers and negations. -/
def indexedPairs (indexed : SortedSet String) : Query → List (String × String)
  | equality field (some value) => if isLookedUp indexed field then [(field, value)] else []
  | and cs => indexedPairsAll indexed cs
  | or cs => indexedPairsAll indexed cs
  | _ => []

def indexedPairsAll (indexed : SortedSet String) : List Query → List (String × String)
  | [] => []
  | c :: cs => indexedPairs indexed c ++ indexedPairsAll indexed cs

end

def indexedTerms (indexed : SortedSet String) (q : Query) : Terms :=
  (indexedPairs indexed q).foldl (fun terms p => terms.add p.1 p.2) .empty

mutual

/-- Whether every clause is an indexed equality and every join has a child. -/
def allIndexed (indexed : SortedSet String) : Query → Bool
  | equality field (some _) => isLookedUp indexed field
  | and cs => !cs.isEmpty && eachIndexed indexed cs
  | or cs => !cs.isEmpty && eachIndexed indexed cs
  | _ => Bool.false

def eachIndexed (indexed : SortedSet String) : List Query → Bool
  | [] => Bool.true
  | c :: cs => allIndexed indexed c && eachIndexed indexed cs

end

end Query

end ShardedSearch
