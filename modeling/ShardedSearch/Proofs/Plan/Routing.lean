import ShardedSearch.Plan.Route
import ShardedSearch.Proofs.Lookup.Pointwise
import ShardedSearch.Proofs.Query.Clauses

/-! # Queries for the bitmaps, looked up

The bitmaps of days are used for queries over indexed equalities. If such a query is planned
with the shard index instead, each leaf becomes a look-up, except for those on the datatype,
which the test for the bitmaps lets pass and which a look-up never resolves.
-/

namespace ShardedSearch

namespace Lookup

variable {x : LookupContext} {place : Place} {q c : Query} {field value : String}

/-- The only equalities on indexed fields that are not looked up are those on the datatype. -/
theorem equality_of_isLookedUp (h : Query.isLookedUp x.config.indexed field = true) :
    equality x place q field (some value) =
      if field = Query.datatypeField then leaf q .delayed else term x place q field value := by
  rw [Query.isLookedUp, Bool.and_eq_true, Bool.not_eq_true'] at h
  have hindexed : x.config.isIndexed field = true := h.1
  have hknown : x.config.isKnown field = true := by
    rw [PlanConfig.isKnown, h.1, Bool.or_true]
  simp [equality, h.2, hknown, hindexed]

/-- Whether the stream of a clause is a look-up of a term, wherever the clause stands. -/
def IsLookedUp (x : LookupContext) (c : Query) : Prop :=
  ∃ field value, ∀ place, streamOf x place c = pure (term x place c field value)

theorem delayed_ne_term : leaf q .delayed ≠ term x place c field value := by
  intro h
  injection h with h
  injection h with _ h
  cases h

theorem not_isLookedUp_of_delayed (h : ∀ place, streamOf x place c = pure (leaf c .delayed)) :
    ¬ IsLookedUp x c := by
  rintro ⟨field, value, hc⟩
  have heq := congrArg Raising.value ((h []).symm.trans (hc []))
  exact delayed_ne_term (Except.ok.inj heq)

end Lookup

namespace Planner

open Lookup

variable {p : Planner} {q c : Query} {field value : String}

theorem overTerms_of_usesPruning (h : p.usesPruning q = true) :
    q.OverTerms fun field _ => Query.isLookedUp p.config.indexed field = true := by
  rw [usesPruning, Bool.and_eq_true] at h
  exact (Query.allIndexed_iff q).mp h.2

/-- A leaf of a query for the bitmaps is an equality, and becomes a look-up unless it is on the
datatype. -/
theorem streamOf_leaf_of_usesPruning (h : p.usesPruning q = true) (hc : c.IsLeafOf q.flatten) :
    ∃ field value, c = .equals field value ∧ ∀ place, streamOf p.lookupContext place c =
      pure (if field = Query.datatypeField then leaf c .delayed
        else term p.lookupContext place c field value) := by
  have hover := Query.overTerms_flatten (overTerms_of_usesPruning h)
  obtain ⟨field, value, rfl, hfield⟩ := hover.exists_of_leaf hc
  exact ⟨field, value, rfl, fun place => congrArg pure (equality_of_isLookedUp hfield)⟩

/-- The leaves of a query for the bitmaps are indexed equalities, and those on the datatype are
put off without a look-up. So the shard index would resolve every leaf just when no field of the
query is the datatype. -/
theorem resolves_iff_of_usesPruning (h : p.usesPruning q = true) :
    (∀ c, c.IsLeafOf q.flatten → ∃ field value, c = .equals field value ∧
      ∀ place, streamOf p.lookupContext place c =
        pure (if field = Query.datatypeField then leaf c .delayed
          else term p.lookupContext place c field value)) ∧
    ((∀ c, c.IsLeafOf q.flatten → IsLookedUp p.lookupContext c) ↔
      Query.datatypeField ∉ q.fieldList) := by
  refine ⟨fun c => streamOf_leaf_of_usesPruning h, fun hall hf => ?_, fun hf c hc => ?_⟩
  · rw [← Query.fieldList_flatten] at hf
    obtain ⟨value, hleaf⟩ :=
      (Query.overTerms_flatten (overTerms_of_usesPruning h)).exists_leaf hf
    refine not_isLookedUp_of_delayed ?_ (hall _ hleaf)
    obtain ⟨field, value, heq, hstream⟩ := streamOf_leaf_of_usesPruning h hleaf
    obtain ⟨rfl, -⟩ := Query.equality.inj heq
    exact hstream
  · obtain ⟨field, value, rfl, hstream⟩ := streamOf_leaf_of_usesPruning h hc
    have hne : field ≠ Query.datatypeField := by
      rintro rfl
      exact hf (Query.fieldList_flatten q ▸ Query.mem_fieldList_of_leaf hc)
    refine ⟨field, value, fun place => ?_⟩
    rw [hstream, if_neg hne]

/-! ### The datatype as an indexed field -/

/-- Plans a day with the bitmaps for any range; the datatype is one of the indexed fields. -/
def typePlanner : Planner where
  store := ⟨.ofList [("shardIndex", smallIndex)], .empty, fun _ _ => none⟩
  config := ⟨{ pruning := { dayThreshold := 0 } }, .empty, .small, .small,
    Calendar.Date.le_refl .small, .ofList ["A", "EVENT_DATATYPE"], .empty, .empty, .shard⟩
  counts := .ofList []

def typeQuery : Query := .and [.equals "A" "1", .equals "EVENT_DATATYPE" "log"]

theorem resolves_iff_typePlanner : typePlanner.usesPruning (.equals "A" "1") = true ∧
    ∀ c, c.IsLeafOf (Query.equals "A" "1").flatten → IsLookedUp typePlanner.lookupContext c := by
  have h : typePlanner.usesPruning (.equals "A" "1") = true := by decide
  exact ⟨h, (resolves_iff_of_usesPruning h).2.mpr (by decide)⟩

theorem not_resolves_typeQuery : typePlanner.usesPruning typeQuery = true ∧
    ∃ c, c.IsLeafOf typeQuery.flatten ∧
      ∀ place, streamOf typePlanner.lookupContext place c = pure (leaf c .delayed) := by
  refine ⟨by decide, .equals "EVENT_DATATYPE" "log", ⟨?_, nofun, nofun⟩, fun place => rfl⟩
  have hflat : typeQuery.flatten = typeQuery := by decide
  rw [hflat]
  exact .and (List.mem_cons_of_mem _ (List.mem_singleton_self _)) .self

end Planner

end ShardedSearch
