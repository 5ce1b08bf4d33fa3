import ShardedSearch.Order.Map
import ShardedSearch.Number.Integer
import ShardedSearch.Query.Text

/-! # Selectivity order

Clauses sorted by how many records they match. A conjunction costs as much as its
cheapest clause, a disjunction as much as all of its clauses together, and anything
without a count costs most. Clauses of equal cost keep their order.
-/

namespace ShardedSearch

def maxCount : Nat := Number.wordMax

/-- Sum of two counts, at most the greatest one. -/
def addCounts (a b : Nat) : Nat := min (a + b) maxCount

namespace Query

/-- What the cost of an equality is looked up by. -/
inductive CostKey where
  | term
  | field
deriving DecidableEq

variable (counts : SortedMap String Nat) (key : CostKey)

mutual

def cost : Query → Nat
  | equality field literal =>
    (counts.get? (match key with
      | .term => (equality field literal).text
      | .field => field)).getD maxCount
  | and cs => leastCost cs
  | or cs => totalCost cs
  | _ => maxCount

def leastCost : List Query → Nat
  | [] => maxCount
  | c :: cs => min (cost c) (leastCost cs)

def totalCost : List Query → Nat
  | [] => 0
  | c :: cs => addCounts (cost c) (totalCost cs)

end

def sortByCost (cs : List Query) : List Query :=
  cs.mergeSort fun a b => cost counts key a ≤ cost counts key b

mutual

/-- The tree with the clauses of every join sorted by cost. -/
def orderByCost : Query → Query
  | and cs => and (sortByCost counts key (orderByCostAll cs))
  | or cs => or (sortByCost counts key (orderByCostAll cs))
  | q => q

def orderByCostAll : List Query → List Query
  | [] => []
  | c :: cs => orderByCost c :: orderByCostAll cs

end

end Query

end ShardedSearch
