import ShardedSearch.Merge.Conjunction
import ShardedSearch.Merge.Disjunction
import ShardedSearch.Workers

/-! # Streams

Trees of merges over leaves. The operations of a tree use those of its subtrees, so they
are built up level by level. Leaves are looked up before they are merged, on a pool of
workers if there is one.
-/

namespace ShardedSearch.Merge

inductive Stream where
  | leaf (l : Leaf)
  | disjunction (d : Disjunction Stream)
  | conjunction (j : Conjunction Stream)

namespace Stream

def context : Stream → Context
  | leaf l => l.context
  | disjunction d => d.context
  | conjunction j => j.context

def query : Stream → Query
  | leaf l => l.query
  | disjunction d => d.query
  | conjunction j => j.query

def head : Stream → Option Candidate
  | leaf l => l.head
  | disjunction d => d.head
  | conjunction j => j.head

/-- Looks up a pending leaf; merges are looked up when they are made. -/
def resolve : Stream → Raising Stream
  | leaf l => leaf <$> l.resolve
  | s => pure s

mutual

def height : Stream → Nat
  | leaf _ => 1
  | disjunction d => heightOfDisjunction d + 1
  | conjunction j => heightOfConjunction j + 1

def heightOfDisjunction : Disjunction Stream → Nat
  | ⟨_, _, children, _, _⟩ => heightOfAll children

def heightOfConjunction : Conjunction Stream → Nat
  | ⟨_, _, children, asked, _, _⟩ => max (heightOfAll children) (heightOfAll asked)

def heightOfAll : List Stream → Nat
  | [] => 0
  | s :: ss => max (height s) (heightOfAll ss)

end

/-- The operations of trees over subtrees with the given operations. -/
def opsOver (ops : StreamOps Stream) : StreamOps Stream where
  context := context
  query := query
  head := head
  advance
    | leaf l => do
      let (c, l) ← l.advance
      pure (c, leaf l)
    | disjunction d => do
      let (c, d) ← d.advance ops
      pure (c, disjunction d)
    | conjunction j => do
      let (c, j) ← j.advance ops
      pure (c, conjunction j)
  seek shard
    | leaf l => leaf <$> l.seek shard
    | disjunction d => disjunction <$> d.seek ops shard
    | conjunction j => conjunction <$> j.seek ops shard
  answer shard
    | leaf l => do
      let (c, l) ← l.answer shard
      pure (c, leaf l)
    | disjunction d => do
      let (c, d) ← d.answer ops shard
      pure (c, disjunction d)
    | conjunction j => do
      let (c, j) ← j.answer ops shard
      pure (c, conjunction j)
  remaining
    | leaf l => l.remaining
    | disjunction d => d.remaining ops
    | conjunction j => j.remaining ops

def opsWithin : Nat → StreamOps Stream
  | 0 => ⟨context, query, head, fun s => pure (none, s), fun _ s => pure s,
      fun _ s => pure (none, s), fun _ => 0⟩
  | n + 1 => opsOver (opsWithin n)

def advance (s : Stream) : Raising (Option Candidate × Stream) := (opsWithin s.height).advance s

def seek (shard : ShardId) (s : Stream) : Raising Stream := (opsWithin s.height).seek shard s

def answer (shard : ShardId) (s : Stream) : Raising (Option Candidate × Stream) :=
  (opsWithin s.height).answer shard s

/-- At least the number of candidates left. -/
def remaining (s : Stream) : Nat := (opsWithin s.height).remaining s

def take : Nat → Stream → Raising (List Candidate × Stream)
  | 0, s => pure ([], s)
  | n + 1, s => do
    let (c?, s) ← s.advance
    match c? with
    | some c => do
      let (cs, s) ← take n s
      pure (c :: cs, s)
    | none => pure ([], s)

def drain (s : Stream) : Raising (List Candidate × Stream) := do
  let s ← s.resolve
  s.take (s.remaining + 1)

def describeMerge (kind : String) (context : Context) (parts : List String) (deferred : Nat) :
    String :=
  kind ++ " (" ++ context.label ++ "): [" ++ ", ".intercalate parts ++ "] deferred " ++
    toString deferred

mutual

def description : Stream → String
  | leaf l => "ScannerStream (" ++ l.context.label ++ "): " ++ l.query.text
  | disjunction d => descriptionOfDisjunction d
  | conjunction j => descriptionOfConjunction j

def descriptionOfDisjunction : Disjunction Stream → String
  | ⟨_, context, children, deferred, _⟩ =>
    describeMerge "Union" context (descriptions children) deferred.length

def descriptionOfConjunction : Conjunction Stream → String
  | ⟨_, context, children, asked, deferred, _⟩ =>
    describeMerge "Intersection" context (descriptions children ++ descriptions asked)
      deferred.length

def descriptions : List Stream → List String
  | [] => []
  | s :: ss => description s :: descriptions ss

end

/-! ### Making trees -/

/-- Making a tree fails when there is no looking up a stream; other errors are raised only. -/
abbrev Making := ExceptT Failure Raising

def isLost : Stream → Bool
  | leaf l => l.isAbandoned
  | _ => false

def await (s : Stream) : Making Stream :=
  if s.isLost then throw (.error .abandoned) else liftM s.resolve

def awaitAll : List Stream → Making (List Stream)
  | [] => pure []
  | s :: ss => do
    let s ← s.await
    return s :: (← awaitAll ss)

/-- Whether some workers leave a stream in their queue. A lost worker is not replaced, and
nobody learns of it as long as there is more in the queue. -/
def starves : Nat → List Stream → Bool
  | _, [] => false
  | 0, s :: ss => s.context = .pending || starves 0 ss
  | n + 1, s :: ss => starves (if s.isLost then n else n + 1) ss

/-- What keeps streams from being looked up on a pool, or by the caller if there is none. -/
def obstacle? : Option WorkerPool → List Stream → Option Failure
  | some p, ss =>
    if p.accepting then if starves p.threads ss then some .stuck else none
    else if ss.any fun s => s.context = .pending then some (.error (.poolClosed p.name)) else none
  | none, ss => if ss.any isLost then some .unwound else none

def resolveAll (pool : Option WorkerPool) (ss : List Stream) : Making (List Stream) :=
  match obstacle? pool ss with
  | some f => throw f
  | none => awaitAll ss

def opsFor (streams : List Stream) : StreamOps Stream := opsWithin (heightOfAll streams)

/-- The merge of streams of which at least one has to have a shard. -/
def anyOf (query : Query) (streams : List Stream) (pool : Option WorkerPool) :
    Making (Disjunction Stream) := do
  let streams ← resolveAll pool streams
  Disjunction.ofStreams (opsFor streams) query streams

/-- The merge of streams all of which have to have a shard. -/
def allOf (query : Query) (streams : List Stream) (pool : Option WorkerPool) :
    Making (Conjunction Stream) := do
  let streams ← resolveAll pool streams
  Conjunction.ofStreams (opsFor streams) query streams

end Stream

end ShardedSearch.Merge
