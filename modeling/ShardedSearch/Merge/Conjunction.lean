import ShardedSearch.Merge.Ops

/-! # Conjunctions

The merge of streams all of which have to have a shard. Streams with a position agree on
the next shard; a day is at all of its shards. Mixed streams are then asked for that
shard and can refuse it; where nothing else has a position they choose it themselves.
Clauses of delayed streams ride along with every candidate.
-/

namespace ShardedSearch.Merge

structure Conjunction (σ : Type) where
  query : Query
  context : Context
  /-- The streams that choose the shards. -/
  children : List σ
  /-- The streams that are asked for a chosen shard. -/
  asked : List σ
  /-- Clauses of the delayed streams. -/
  deferred : List Query
  head : Option Candidate

namespace Conjunction

variable {σ : Type} (ops : StreamOps σ)

/-- The shards in view, unless a stream has none. -/
def heads? : List σ → Option (List ShardId)
  | [] => some []
  | s :: ss =>
    match ops.head s, heads? ss with
    | some c, some ids => some (c.shard :: ids)
    | _, _ => none

/-- Moves every stream that has to reach the target. Tells whether all were there already,
and nothing once a stream has come to its end. -/
def align (target : ShardId) : List σ → Raising (Option Bool × List σ)
  | [] => pure (some true, [])
  | s :: ss =>
    match ops.head s with
    | some c =>
      if c.shard = target ∨ Shard.covers c.shard target then do
        let (aligned, ss) ← align target ss
        pure (aligned, s :: ss)
      else do
        let s ← ops.seek target s
        if (ops.head s).isSome then do
          let (aligned, ss) ← align target ss
          pure (aligned.map fun _ => false, s :: ss)
        else pure (none, s :: ss)
    | none => pure (none, s :: ss)

/-- Takes what the streams have at the target; what a day has is copied. -/
def takeAll (target : ShardId) : List σ → Raising (List Evidence × List σ)
  | [] => pure ([], [])
  | s :: ss =>
    match ops.head s with
    | some c => do
      let (_, s) ← if c.shard = target then ops.advance s else pure (none, s)
      let (es, ss) ← takeAll target ss
      pure (c.evidence :: es, s :: ss)
    | none => do
      let (es, ss) ← takeAll target ss
      pure (es, s :: ss)

/-- Asks streams for a shard until one refuses it. -/
def askAll (target : ShardId) : List σ → Raising (Option (List Evidence) × List σ)
  | [] => pure (some [], [])
  | s :: ss => do
    let (c?, s) ← ops.answer target s
    match c? with
    | some c => do
      let (es, ss) ← askAll target ss
      pure (es.map (c.evidence :: ·), s :: ss)
    | none => pure (none, s :: ss)

/-- Brings the next candidate into view. Every round takes a candidate off a stream or
moves one ahead, so there are no more rounds than candidates left. -/
def refillWithin : Nat → Conjunction σ → Raising (Conjunction σ)
  | 0, j => pure { j with head := none }
  | n + 1, j =>
    match (heads? ops j.children).bind List.max? with
    | none => pure { j with head := none }
    | some target => do
      let (aligned, children) ← align ops target j.children
      match aligned with
      | none => pure { j with children, head := none }
      | some false => refillWithin n { j with children }
      | some true => do
        let (found, children) ← takeAll ops target children
        let (answers, asked) ← askAll ops target j.asked
        match answers with
        | none => refillWithin n { j with children, asked }
        | some answers =>
          let evidence := Evidence.conj (found ++ answers) j.deferred
          if evidence.isEmpty then refillWithin n { j with children, asked }
          else pure { j with children, asked, head := some ⟨target, evidence⟩ }

def refill (j : Conjunction σ) : Raising (Conjunction σ) :=
  j.refillWithin ops (ops.remainingOfAll j.children + 1)

def nothing (query : Query) : Conjunction σ := ⟨query, .absent, [], [], [], none⟩

/-- The merge of streams that have been looked up; a single one without shards leaves none
at all. -/
def ofStreams (query : Query) (streams : List σ) : Raising (Conjunction σ) :=
  if streams.any fun s => ops.context s = .absent then pure (nothing query)
  else
    let children := streams.filter fun s =>
      ops.context s = .present || ops.context s = .pending
    let mixed := streams.filter fun s => ops.context s = .mixed
    let deferred := (streams.filter fun s => ops.context s = .delayed).map ops.query
    if !children.isEmpty then refill ops ⟨query, .present, children, mixed, deferred, none⟩
    else if !mixed.isEmpty then refill ops ⟨query, .mixed, mixed, [], deferred, none⟩
    else if !deferred.isEmpty then pure ⟨query, .delayed, [], [], deferred, none⟩
    else pure (nothing query)

def advance (j : Conjunction σ) : Raising (Option Candidate × Conjunction σ) :=
  match j.head with
  | some c => do
    let j ← j.refill ops
    pure (some c, j)
  | none => pure (none, j)

def seek (shard : ShardId) (j : Conjunction σ) : Raising (Conjunction σ) :=
  if j.head.any fun c => Shard.precedes c.shard shard then do
    let children ← j.children.mapM (ops.seek shard)
    refill ops { j with children }
  else pure j

/-- A merge that nothing positions lets everything pass. -/
def answer (shard : ShardId) (j : Conjunction σ) :
    Raising (Option Candidate × Conjunction σ) :=
  match j.context with
  | .present => answerAt head (advance ops) (seek ops) shard j
  | .mixed => pure (some ⟨shard, .unknown j.query⟩, j)
  | .delayed => pure (some ⟨shard, .unknown j.query⟩, j)
  | _ => pure (none, j)

def remaining (j : Conjunction σ) : Nat :=
  ops.remainingOfAll j.children + j.head.toList.length

end Conjunction

end ShardedSearch.Merge
