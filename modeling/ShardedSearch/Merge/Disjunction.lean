import ShardedSearch.Merge.Ops

/-! # Disjunctions

The merge of streams of which at least one has to have a shard. At a day, everything its
streams have for that day's shards is taken with it. Streams without a position are not
merged; their clauses ride along with every candidate.
-/

namespace ShardedSearch.Merge

structure Disjunction (σ : Type) where
  query : Query
  context : Context
  children : List σ
  /-- Clauses of the streams without a position. -/
  deferred : List Query
  head : Option Candidate

namespace Disjunction

variable {σ : Type} (ops : StreamOps σ)

/-- Takes candidates for a shard, or covered by it, off a stream, at most the given
number. -/
def takeFrom (shard : ShardId) : Nat → σ → Raising (List Evidence × σ)
  | 0, s => pure ([], s)
  | n + 1, s =>
    match ops.head s with
    | some c =>
      if c.shard = shard ∨ Shard.covers shard c.shard then do
        let (_, s) ← ops.advance s
        let (es, s) ← takeFrom shard n s
        pure (c.evidence :: es, s)
      else pure ([], s)
    | none => pure ([], s)

/-- Takes what the streams have at the lowest shard: one candidate each, or all that a day
covers. -/
def takeAll (shard : ShardId) : List σ → Raising (List Evidence × List σ)
  | [] => pure ([], [])
  | s :: ss => do
    let (es, s) ← takeFrom ops shard (if Shard.isDay shard then ops.remaining s else 1) s
    let (rest, ss) ← takeAll shard ss
    pure (es ++ rest, s :: ss)

def lowest? (children : List σ) : Option ShardId :=
  (children.filterMap fun s => (ops.head s).map (·.shard)).min?

def refill (d : Disjunction σ) : Raising (Disjunction σ) :=
  match lowest? ops d.children with
  | some shard => do
    let (es, children) ← takeAll ops shard d.children
    pure { d with children, head := some ⟨shard, .disj es d.deferred⟩ }
  | none => pure { d with head := none }

/-- The streams and clauses a merge of streams is made from. -/
def sort : List σ → List σ × List Query
  | [] => ([], [])
  | s :: ss =>
    let (children, deferred) := sort ss
    match ops.context s with
    | .present => (s :: children, deferred)
    | .pending => (s :: children, deferred)
    | .delayed => (children, ops.query s :: deferred)
    | .mixed => (children, ops.query s :: deferred)
    | .absent => (children, deferred)
    | .skipped => (children, deferred)

def contextOf (children : List σ) (deferred : List Query) : Context :=
  match children.isEmpty, deferred.isEmpty with
  | false, false => .mixed
  | false, true => .present
  | true, false => .delayed
  | true, true => .absent

def ofStreams (query : Query) (streams : List σ) : Raising (Disjunction σ) :=
  let (children, deferred) := sort ops streams
  refill ops ⟨query, contextOf children deferred, children, deferred, none⟩

def advance (d : Disjunction σ) : Raising (Option Candidate × Disjunction σ) :=
  match d.head with
  | some c => do
    let d ← d.refill ops
    pure (some c, d)
  | none => pure (none, d)

def seek (shard : ShardId) (d : Disjunction σ) : Raising (Disjunction σ) :=
  if d.head.any fun c => Shard.precedes c.shard shard then do
    let children ← d.children.mapM (ops.seek shard)
    refill ops { d with children }
  else pure d

/-- What the streams themselves have for a chosen shard. -/
def collect (shard : ShardId) : List σ → Raising (List Evidence × List σ)
  | [] => pure ([], [])
  | s :: ss => do
    let s ← ops.seek shard s
    let (es, s) ← takeFrom ops shard (ops.remaining s) s
    let day := (ops.head s).filter fun c => Shard.covers c.shard shard
    let (rest, ss) ← collect shard ss
    pure (es ++ day.toList.map (·.evidence) ++ rest, s :: ss)

/-- Joins what was found with the deferred clauses, if there is anything. -/
def combined (shard : ShardId) (d : Disjunction σ) (es : List Evidence) : Option Candidate :=
  if es.isEmpty && d.deferred.isEmpty then none else some ⟨shard, .disj es d.deferred⟩

/-- What is in view counts if it is at the shard or covered by it, and is kept in view if it
covers the shard or lies behind it. -/
def answer (shard : ShardId) (d : Disjunction σ) :
    Raising (Option Candidate × Disjunction σ) :=
  match d.context with
  | .delayed => pure (some ⟨shard, .disj [] d.deferred⟩, d)
  | .present => answerMerged
  | .mixed => answerMerged
  | _ => pure (none, d)
where
  answerMerged : Raising (Option Candidate × Disjunction σ) :=
    match d.head with
    | some c =>
      if c.shard = shard ∨ Shard.covers shard c.shard then answerRest [c.evidence]
      else if Shard.covers c.shard shard then pure (d.combined shard [c.evidence], d)
      else if shard < c.shard then pure (d.combined shard [], d)
      else answerRest []
    | none => answerRest []
  answerRest (es : List Evidence) : Raising (Option Candidate × Disjunction σ) := do
    let (rest, children) ← collect ops shard d.children
    let d ← refill ops { d with children }
    pure (d.combined shard (es ++ rest), d)

def remaining (d : Disjunction σ) : Nat :=
  ops.remainingOfAll d.children + d.head.toList.length

end Disjunction

end ShardedSearch.Merge
