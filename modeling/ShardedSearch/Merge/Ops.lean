import ShardedSearch.Merge.Leaf

/-! # Stream operations

What can be done with a stream whatever it is made of, so that merges need not know
their children. A stream moves forward only, one candidate in view, and can be asked for
a shard that somebody else has chosen.
-/

namespace ShardedSearch.Merge

structure StreamOps (σ : Type) where
  context : σ → Context
  /-- The clause the stream stands for. -/
  query : σ → Query
  /-- The candidate in view. -/
  head : σ → Option Candidate
  /-- Takes the candidate in view. -/
  advance : σ → Raising (Option Candidate × σ)
  /-- Moves to the first candidate that does not precede a shard. -/
  seek : ShardId → σ → Raising σ
  /-- The candidate for a chosen shard. -/
  answer : ShardId → σ → Raising (Option Candidate × σ)
  /-- At least the number of candidates left. -/
  remaining : σ → Nat

/-- At least the number of candidates left in several streams. -/
def StreamOps.remainingOfAll {σ : Type} (ops : StreamOps σ) (ss : List σ) : Nat :=
  ss.foldr (fun s n => ops.remaining s + n) 0

theorem StreamOps.remainingOfAll_cons {σ : Type} (ops : StreamOps σ) (s : σ) (ss : List σ) :
    ops.remainingOfAll (s :: ss) = ops.remaining s + ops.remainingOfAll ss := rfl

/-- The answer of a stream with a position: a candidate for the shard itself is taken,
one for its day is copied. -/
def answerAt {σ : Type} (head : σ → Option Candidate)
    (advance : σ → Raising (Option Candidate × σ)) (seek : ShardId → σ → Raising σ)
    (shard : ShardId) (s : σ) : Raising (Option Candidate × σ) := do
  let s ← seek shard s
  match head s with
  | some c =>
    if c.shard = shard then advance s
    else if Shard.covers c.shard shard then pure (some ⟨shard, c.evidence⟩, s)
    else pure (none, s)
  | none => pure (none, s)

namespace Leaf

def answer (shard : ShardId) (l : Leaf) : Raising (Option Candidate × Leaf) :=
  match l.state with
  | .delayed => pure (some ⟨shard, .unknown l.query⟩, l)
  | .present .. => answerAt head advance seek shard l
  | .pending _ => answerAt head advance seek shard l
  | _ => pure (none, l)

def ops : StreamOps Leaf where
  context := context
  query := query
  head := head
  advance := advance
  seek := seek
  answer := answer
  remaining := remaining

end Leaf

end ShardedSearch.Merge
