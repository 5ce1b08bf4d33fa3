import ShardedSearch.Order.Map

/-! # Sequencers

Numbered results put back into the order of their numbers, whatever the order of their
arrival. A result waits until all lower numbers are out; a number that never arrives is
passed over once no more arrivals can come.
-/

namespace ShardedSearch.DayIndex

structure Sequencer (α : Type) where
  /-- The number that is due next. -/
  due : Nat
  waiting : SortedMap Nat α
  /-- Results still to arrive, in the order of their arrival. -/
  arrivals : List (Nat × α)

namespace Sequencer

variable {α : Type}

def ofArrivals (arrivals : List (Nat × α)) : Sequencer α := ⟨0, .empty, arrivals⟩

/-- The result that is due, if it has arrived. -/
def dueOf? (due : Nat) (waiting : SortedMap Nat α) (arrivals : List (Nat × α)) :
    Option (α × Sequencer α) :=
  (waiting.get? due).map fun a => (a, ⟨due + 1, waiting.erase due, arrivals⟩)

def lowestOf? (waiting : SortedMap Nat α) : Option (α × Sequencer α) :=
  waiting.toList.head?.map fun e => (e.2, ⟨e.1 + 1, waiting.erase e.1, []⟩)

/-- The next result, after as many arrivals as it takes. -/
def nextOf? (due : Nat) (waiting : SortedMap Nat α) :
    List (Nat × α) → Option (α × Sequencer α)
  | [] => (dueOf? due waiting []).or (lowestOf? waiting)
  | e :: arrivals =>
    match dueOf? due waiting (e :: arrivals) with
    | some r => some r
    | none => nextOf? due (waiting.insert e.1 e.2) arrivals

def next? (s : Sequencer α) : Option (α × Sequencer α) := nextOf? s.due s.waiting s.arrivals

def size (s : Sequencer α) : Nat := s.waiting.size + s.arrivals.length

def take : Nat → Sequencer α → List α
  | 0, _ => []
  | n + 1, s =>
    match s.next? with
    | some (a, s) => a :: take n s
    | none => []

def drain (s : Sequencer α) : List α := s.take s.size

end Sequencer

end ShardedSearch.DayIndex
