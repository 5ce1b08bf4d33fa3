import ShardedSearch.Memory
import ShardedSearch.Merge.Leaf
import ShardedSearch.Store.Basic

/-! # Memory of look-ups

Once its scanner is open, a look-up takes memory for a whole batch before it reads the
first entry. A worker that asks for more than there can be is lost with its look-up.
-/

namespace ShardedSearch.Lookup

open Store (Scanner StoreError)

/-- Bytes that a batch takes for each entry. -/
def entryBytes : Nat := 104

/-- Whether there can be memory for a batch. -/
def canHold (batchSize : Nat) : Bool := batchSize * entryBytes ≤ bytesMax

def holding (batchSize : Nat) (s : Except StoreError Scanner) (l : Merge.Lookup) :
    Merge.Lookup :=
  match s with
  | .ok _ => if canHold batchSize then l else ⟨none, .error .abandoned⟩
  | .error _ => l

theorem holding_of_canHold {batchSize : Nat} (h : canHold batchSize = true)
    (s : Except StoreError Scanner) (l : Merge.Lookup) : holding batchSize s l = l := by
  cases s <;> simp [holding, h]

end ShardedSearch.Lookup
