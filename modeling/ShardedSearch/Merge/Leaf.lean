import ShardedSearch.Candidate.Evidence
import ShardedSearch.Merge.Context
import ShardedSearch.Merge.Raising

/-! # Leaf streams

The candidates of a single clause in the order of a source. A leaf looks at one
candidate ahead, and an error that the source meets on the way to a candidate is raised
when that candidate comes into view. A clause whose look-up fails in the store is
delayed; any other failure leaves it without candidates.
-/

namespace ShardedSearch.Merge

/-- Candidates with the errors met on the way to each, and behind the last one. -/
structure Source where
  items : List (Option PlanError × Candidate)
  ending : Option PlanError

namespace Source

def ofList (cs : List Candidate) : Source := ⟨cs.map (none, ·), none⟩

def pull : Source → Raising (Option Candidate × Source)
  | ⟨[], ending⟩ => do
    Raising.raise? ending
    pure (none, ⟨[], none⟩)
  | ⟨(e, c) :: items, ending⟩ => do
    Raising.raise? e
    pure (some c, ⟨items, ending⟩)

/-- The first candidate that need not move on to reach a shard, from a candidate on. -/
def skipTo (shard : ShardId) (ending : Option PlanError) :
    Candidate → List (Option PlanError × Candidate) → Raising (Option Candidate × Source)
  | c, items =>
    if Shard.precedes c.shard shard then
      match items with
      | [] => do
        Raising.raise? ending
        pure (none, ⟨[], none⟩)
      | (e, c) :: items => do
        Raising.raise? e
        skipTo shard ending c items
    else pure (some c, ⟨items, ending⟩)

end Source

/-- Outcome of looking up a clause, and an error met although there is one. -/
structure Lookup where
  raised : Option PlanError
  result : Except PlanError Source

inductive LeafState where
  | pending (lookup : Lookup)
  /-- There is or was a candidate; the next one is in view. -/
  | present (head : Option Candidate) (rest : Source)
  | absent
  | skipped
  | delayed

structure Leaf where
  query : Query
  state : LeafState

namespace Leaf

def context (l : Leaf) : Context :=
  match l.state with
  | .pending _ => .pending
  | .present .. => .present
  | .absent => .absent
  | .skipped => .skipped
  | .delayed => .delayed

def stateOf : Option Candidate × Source → LeafState
  | (some c, rest) => .present (some c) rest
  | (none, _) => .absent

def ofList (query : Query) (cs : List Candidate) : Leaf :=
  ⟨query, stateOf (Source.ofList cs).pull.value⟩

/-- Whether looking up a leaf takes its worker down. -/
def isAbandoned (l : Leaf) : Bool :=
  match l.state with
  | .pending ⟨_, .error .abandoned⟩ => true
  | _ => false

def resolve (l : Leaf) : Raising Leaf :=
  match l.state with
  | .pending lookup => do
    Raising.raise? lookup.raised
    match lookup.result with
    | .ok source => do
      let p ← source.pull
      pure { l with state := stateOf p }
    | .error (.store _) => pure { l with state := .delayed }
    | .error e => do
      Raising.raise e
      pure { l with state := .absent }
  | _ => pure l

def head (l : Leaf) : Option Candidate :=
  match l.state with
  | .present head _ => head
  | _ => none

def advance (l : Leaf) : Raising (Option Candidate × Leaf) := do
  let l ← l.resolve
  match l.state with
  | .present (some c) rest => do
    let (head, rest) ← rest.pull
    pure (some c, { l with state := .present head rest })
  | _ => pure (none, l)

/-- Moves to the first candidate that does not precede a shard. -/
def seek (shard : ShardId) (l : Leaf) : Raising Leaf := do
  let l ← l.resolve
  match l.state with
  | .present (some c) ⟨items, ending⟩ => do
    let (head, rest) ← Source.skipTo shard ending c items
    pure { l with state := .present head rest }
  | _ => pure l

def remaining (l : Leaf) : Nat :=
  match l.state with
  | .present (some _) rest => rest.items.length + 1
  | _ => 0

end Leaf

end ShardedSearch.Merge
