import ShardedSearch.Proofs.Order.Collections

/-! # Merging in any order

Sets are joined and maps are merged in any order and in any groups, if the values of shared keys
are.
-/

namespace ShardedSearch

variable {κ α : Type} [LT κ] [KeyOrder κ] [DecidableEq κ] [DecidableLT κ]

instance : Std.Commutative (SortedSet.union (κ := κ)) :=
  ⟨fun _ _ => SortedSet.ext fun _ => by simp only [SortedSet.mem_union, or_comm]⟩

instance : Std.Associative (SortedSet.union (κ := κ)) :=
  ⟨fun _ _ _ => SortedSet.ext fun _ => by simp only [SortedSet.mem_union, or_assoc]⟩

omit [DecidableLT κ] in
instance : Std.Commutative (SortedSet.inter (κ := κ)) :=
  ⟨fun _ _ => SortedSet.ext fun _ => by simp only [SortedSet.mem_inter, and_comm]⟩

omit [DecidableLT κ] in
instance : Std.Associative (SortedSet.inter (κ := κ)) :=
  ⟨fun _ _ _ => SortedSet.ext fun _ => by simp only [SortedSet.mem_inter, and_assoc]⟩

instance (f : α → α → α) [Std.Commutative f] :
    Std.Commutative (SortedMap.mergeWith (κ := κ) f) where
  comm m n := SortedMap.ext_get? fun k => by
    rw [SortedMap.get?_mergeWith, SortedMap.get?_mergeWith]
    exact Std.Commutative.comm _ _

instance (f : α → α → α) [Std.Associative f] :
    Std.Associative (SortedMap.mergeWith (κ := κ) f) where
  assoc m n o := SortedMap.ext_get? fun k => by
    simp only [SortedMap.get?_mergeWith]
    exact Std.Associative.assoc _ _ _

instance (f : α → α → α) [Std.IdempotentOp f] :
    Std.IdempotentOp (SortedMap.mergeWith (κ := κ) f) where
  idempotent m := SortedMap.ext_get? fun k => by
    rw [SortedMap.get?_mergeWith]
    exact Std.IdempotentOp.idempotent _

end ShardedSearch
