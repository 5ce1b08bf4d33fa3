/-! # Worker pools

A fixed number of workers that run queued jobs in order. A job may hold its worker until
it is released. A pool that is shut down takes no more jobs; one that is interrupted
drops those still queued as well.
-/

namespace ShardedSearch

inductive Job where
  /-- Adds to the total, which is a 64-bit word. -/
  | add (amount : Nat)
  /-- Holds its worker. -/
  | hold
deriving DecidableEq

structure WorkerPool where
  name : String
  threads : Nat
  accepting : Bool
  interrupted : Bool
  queue : List Job
  /-- Number of jobs that hold their worker. -/
  holding : Nat
  /-- Number of finished jobs. -/
  finished : Nat
  total : Nat
deriving DecidableEq

namespace WorkerPool

/-- An idle pool; it has at least one worker. -/
def start (name : String) (threads : Nat) : WorkerPool :=
  ⟨name, max threads 1, true, false, [], 0, 0, 0⟩

/-- Runs queued jobs as long as a worker is free. -/
def runQueue (p : WorkerPool) : List Job → WorkerPool
  | [] => { p with queue := [] }
  | job :: jobs =>
    if p.threads ≤ p.holding then { p with queue := job :: jobs }
    else match job with
      | .add n =>
        runQueue { p with finished := p.finished + 1, total := (p.total + n) % UInt64.size } jobs
      | .hold => runQueue { p with holding := p.holding + 1 } jobs

/-- Queues a job; a pool that takes none gives nothing back. -/
def submit? (job : Job) (p : WorkerPool) : Option WorkerPool :=
  if p.accepting then some (p.runQueue (p.queue ++ [job])) else none

def release (p : WorkerPool) : WorkerPool :=
  if 0 < p.holding then
    { p with holding := p.holding - 1, finished := p.finished + 1 }.runQueue p.queue
  else p

/-- Takes no more jobs; queued ones still run. -/
def shutdown (p : WorkerPool) : WorkerPool := { p with accepting := false }

/-- Takes no more jobs and drops the queued ones. -/
def interrupt (p : WorkerPool) : WorkerPool :=
  { p with accepting := false, interrupted := true, queue := [] }

end WorkerPool

end ShardedSearch
