import ShardedSearch.Proofs.Candidate.Evidence
import ShardedSearch.Proofs.Order.Merging
import ShardedSearch.Proofs.Query.Selectivity

/-! # Agreeing evidence

Evidence that differs in nothing but the form of its query. Sets of records, counts and the
meaning of clauses combine by operations that are commutative and associative at every level,
so evidence that is matched combines to evidence that agrees, in whatever order it comes.
-/

namespace ShardedSearch

/-! ### Operations in any order -/

namespace Counts

instance : Std.Commutative merge where
  comm c d := by
    simp only [merge]
    exact congrArg₂ mk (Std.Commutative.comm _ _) (Std.Commutative.comm _ _)

instance : Std.Associative merge where
  assoc b c d := by
    simp only [merge]
    exact congrArg₂ mk (Std.Associative.assoc _ _ _) (Std.Associative.assoc _ _ _)

end Counts

namespace Matches

variable {f : SortedSet String → SortedSet String → SortedSet String} {ms ns : List Matches}

instance [Std.Commutative f] : Std.Commutative (combine f) where
  comm m n := by
    cases m <;> cases n <;> first | rfl | exact congrArg exact (Std.Commutative.comm _ _)

instance [Std.Associative f] : Std.Associative (combine f) where
  assoc m n o := by
    cases m <;> cases n <;> cases o <;>
      first | rfl | exact congrArg exact (Std.Associative.assoc _ _ _)

/-- All sets of records combine to the same in any order, though the first one is taken as it
is. -/
theorem combineAll_perm [Std.Commutative f] [Std.Associative f] (h : ms.Perm ns) :
    combineAll f ms = combineAll f ns := by
  induction h with
  | nil => rfl
  | cons m h => exact h.foldl_op_eq
  | swap m n ms => exact congrArg (ms.foldl (combine f)) (Std.Commutative.comm n m)
  | trans _ _ ih ih' => exact ih.trans ih'

end Matches

namespace Evidence

/-- The same records and counts, and queries that mean the same. -/
structure Agree (e f : Evidence) : Prop where
  found : e.found = f.found
  query : e.query.Equivalent f.query
  counts : e.counts = f.counts

variable {e f : Evidence} {es fs : List Evidence} {ds ds' : List Query}

theorem Agree.refl (e : Evidence) : Agree e e := ⟨rfl, .refl _, rfl⟩

theorem Agree.isEmpty_eq (h : Agree e f) : e.isEmpty = f.isEmpty := by
  rw [isEmpty, isEmpty, h.found]

theorem agree_unknown {p q : Query} (h : p.Equivalent q) : Agree (unknown p) (unknown q) :=
  ⟨rfl, h, rfl⟩

section Combine

variable {op : SortedSet String → SortedSet String → SortedSet String}
variable {build : List Query → Query} {parts : Query → List Query}
variable (he : Matched Agree es fs) (hd : Matched Query.Equivalent ds ds')
include he hd

theorem found_combine [Std.Commutative op] [Std.Associative op] :
    (combine op build parts es ds).found = (combine op build parts fs ds').found := by
  have hfound := Matches.combineAll_perm (f := op) (he.perm_map fun _ _ h => h.found)
  simp only [combine, hd.isEmpty_eq, hfound]

omit hd in
theorem counts_combine :
    (combine op build parts es ds).counts = (combine op build parts fs ds').counts :=
  (he.perm_map fun _ _ h => h.counts).foldl_op_eq

end Combine

theorem agree_conj (he : Matched Agree es fs) (hd : Matched Query.Equivalent ds ds') :
    Agree (conj es ds) (conj fs ds') where
  found := found_combine he hd
  query truth := by
    rw [holds_conj, holds_conj, he.all_eq fun _ _ h => h.query truth,
      hd.all_eq fun _ _ h => h truth]
  counts := counts_combine he

theorem agree_disj (he : Matched Agree es fs) (hd : Matched Query.Equivalent ds ds') :
    Agree (disj es ds) (disj fs ds') where
  found := found_combine he hd
  query truth := by
    rw [holds_disj, holds_disj, he.any_eq fun _ _ h => h.query truth,
      hd.any_eq fun _ _ h => h truth]
  counts := counts_combine he

end Evidence

structure Candidate.Agree (c d : Candidate) : Prop where
  shard : c.shard = d.shard
  evidence : c.evidence.Agree d.evidence

theorem Candidate.Agree.refl (c : Candidate) : Agree c c := ⟨rfl, .refl _⟩

end ShardedSearch
