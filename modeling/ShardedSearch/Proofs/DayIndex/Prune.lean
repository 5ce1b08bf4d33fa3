import Mathlib.Data.List.Basic
import ShardedSearch.DayIndex.Prune
import ShardedSearch.Proofs.Index.PeriodEntry
import ShardedSearch.Proofs.Plan.Basic
import ShardedSearch.Proofs.Query.Terms

/-! # Pruned queries

A query over wanted terms is pruned to its branches that are true by the bitmaps, and to nothing
if it is false itself. A day has a plan for every offset at which the query is true.
-/

namespace ShardedSearch

namespace Query

variable {truth truth' : Query → Bool} {p : String → String → Prop}

mutual

/-- A query that holds without its branches that do not. -/
def trueBranches (truth : Query → Bool) : Query → Query
  | and cs => join and (trueClauses truth cs)
  | or cs => join or (trueClauses truth cs)
  | q => q

def trueClauses (truth : Query → Bool) : List Query → List Query
  | [] => []
  | c :: cs => if c.holds truth then trueBranches truth c :: trueClauses truth cs
    else trueClauses truth cs

end

theorem trueClauses_ne_nil {cs : List Query} (h : cs.any (holds truth) = Bool.true) :
    trueClauses truth cs ≠ [] := by
  induction cs with
  | nil => cases h
  | cons c cs ih =>
    rw [trueClauses]
    split
    · exact List.cons_ne_nil _ _
    · next hc =>
      rw [List.any_cons, Bool.eq_false_iff.mpr hc, Bool.false_or] at h
      exact ih h

theorem trueClauses_eq_nil {cs : List Query} (h : cs.any (holds truth) = Bool.false) :
    trueClauses truth cs = [] := by
  induction cs with
  | nil => rfl
  | cons c cs ih =>
    rw [List.any_cons, Bool.or_eq_false_iff] at h
    rw [trueClauses, if_neg (Bool.eq_false_iff.mp h.1), ih h.2]

theorem any_of_all {cs : List Query} (hne : cs ≠ []) (h : cs.all (holds truth) = Bool.true) :
    cs.any (holds truth) = Bool.true := by
  obtain ⟨c, cs, rfl⟩ := List.exists_cons_of_ne_nil hne
  rw [List.all_cons, Bool.and_eq_true] at h
  rw [List.any_cons, h.1, Bool.true_or]

theorem join?_of_ne_nil {build : List Query → Query} {cs : List Query} (h : cs ≠ []) :
    join? build cs = some (join build cs) := by
  cases cs with
  | nil => exact absurd rfl h
  | cons c cs => rfl

mutual

theorem exists_of_holds : ∀ q : Query, q.OverTerms p → q.holds truth = Bool.true →
    ∃ field value, p field value ∧ truth (equals field value) = Bool.true
  | equality field (some value), hq, h => ⟨field, value, hq, h⟩
  | and cs, hq, h => by
    rw [holds_and] at h
    exact exists_of_anyHolds cs hq.2 (any_of_all hq.1 h)
  | or cs, hq, h => by
    rw [holds_or] at h
    exact exists_of_anyHolds cs hq.2 h

theorem exists_of_anyHolds : ∀ cs : List Query, AllOverTerms p cs →
    cs.any (holds truth) = Bool.true →
    ∃ field value, p field value ∧ truth (equals field value) = Bool.true
  | c :: cs, hcs, h => by
    rw [List.any_cons, Bool.or_eq_true] at h
    rcases h with h | h
    · exact exists_of_holds c hcs.1 h
    · exact exists_of_anyHolds cs hcs.2 h

end

mutual

theorem holds_mono (h : ∀ field value, p field value → truth' (equals field value) = Bool.true →
      truth (equals field value) = Bool.true) :
    ∀ q : Query, q.OverTerms p → q.holds truth' = Bool.true → q.holds truth = Bool.true
  | equality field (some value), hq, ht => h field value hq ht
  | and cs, hq, ht => by
    rw [holds_and, List.all_eq_true] at *
    exact fun c hc => holds_mono_of_mem h cs hq.2 c hc (ht c hc)
  | or cs, hq, ht => by
    rw [holds_or, List.any_eq_true] at *
    obtain ⟨c, hc, hct⟩ := ht
    exact ⟨c, hc, holds_mono_of_mem h cs hq.2 c hc hct⟩

theorem holds_mono_of_mem (h : ∀ field value, p field value →
      truth' (equals field value) = Bool.true → truth (equals field value) = Bool.true) :
    ∀ cs : List Query, AllOverTerms p cs → ∀ c ∈ cs, c.holds truth' = Bool.true →
      c.holds truth = Bool.true
  | d :: ds, hcs, c, hc, ht => by
    rcases List.mem_cons.mp hc with heq | hc
    · exact heq ▸ holds_mono h d hcs.1 (heq ▸ ht)
    · exact holds_mono_of_mem h ds hcs.2 c hc ht

end

mutual

/-- Branches that are false may be left out where fewer terms hold. -/
theorem holds_trueBranches (h : ∀ field value, p field value →
      truth' (equals field value) = Bool.true → truth (equals field value) = Bool.true) :
    ∀ q : Query, q.OverTerms p → q.holds truth = Bool.true →
      (q.trueBranches truth).holds truth' = q.holds truth'
  | equality _ (some _), _, _ => rfl
  | and cs, hq, ht => by
    rw [holds_and] at ht
    rw [trueBranches, holds_join_and, all_trueClauses h cs hq.2 ht, holds_and]
  | or cs, hq, _ => by
    rw [trueBranches, holds_join_or, any_trueClauses h cs hq.2, holds_or]

theorem all_trueClauses (h : ∀ field value, p field value →
      truth' (equals field value) = Bool.true → truth (equals field value) = Bool.true) :
    ∀ cs : List Query, AllOverTerms p cs → cs.all (holds truth) = Bool.true →
      (trueClauses truth cs).all (holds truth') = cs.all (holds truth')
  | [], _, _ => rfl
  | c :: cs, hcs, ht => by
    rw [List.all_cons, Bool.and_eq_true] at ht
    rw [trueClauses, if_pos ht.1, List.all_cons, List.all_cons, holds_trueBranches h c hcs.1 ht.1,
      all_trueClauses h cs hcs.2 ht.2]

theorem any_trueClauses (h : ∀ field value, p field value →
      truth' (equals field value) = Bool.true → truth (equals field value) = Bool.true) :
    ∀ cs : List Query, AllOverTerms p cs →
      (trueClauses truth cs).any (holds truth') = cs.any (holds truth')
  | [], _ => rfl
  | c :: cs, hcs => by
    rw [trueClauses, List.any_cons]
    split
    · next hc => rw [List.any_cons, holds_trueBranches h c hcs.1 hc, any_trueClauses h cs hcs.2]
    · next hc =>
      have hc' : c.holds truth' = Bool.false :=
        Bool.eq_false_iff.mpr fun ht => hc (holds_mono h c hcs.1 ht)
      rw [hc', Bool.false_or, any_trueClauses h cs hcs.2]

end

end Query

namespace DayIndex

open Index (PeriodEntry)

variable {e : PeriodEntry} {wanted : SortedSet String} {offset : Nat} {truth : Query → Bool}

theorem mayHold_of_mem {term : String} (h : term ∈ wanted) :
    mayHold e wanted offset term = e.hasOffset term offset := by
  rw [mayHold, PeriodEntry.hasOffset]
  cases e.get? term with
  | some b => rfl
  | none => simp [h]

/-- Whether the truth of terms is what the bitmaps say. -/
abbrev Decided (e : PeriodEntry) (wanted : SortedSet String) (offset : Nat) (truth : Query → Bool)
    (field value : String) : Prop :=
  mayHold e wanted offset (Query.equals field value).text = truth (.equals field value)

mutual

/-- A query over terms is pruned to its true branches, if it is true. -/
theorem prune_eq : ∀ q : Query, q.OverTerms (Decided e wanted offset truth) →
    prune e wanted offset q = if q.holds truth then some (q.trueBranches truth) else none
  | .equality field (some value), hq => by
    have hq : mayHold e wanted offset (Query.equality field (some value)).text =
      (Query.equality field (some value)).holds truth := hq
    rw [prune, hq]
    rfl
  | .and cs, hq => by
    rw [prune, pruneEach_eq cs hq.2, Query.holds_and]
    by_cases h : cs.all (Query.holds truth) = true
    · rw [if_pos h, if_pos h, Query.trueBranches]
      exact Query.join?_of_ne_nil (Query.trueClauses_ne_nil (Query.any_of_all hq.1 h))
    · rw [if_neg h, if_neg h]
  | .or cs, hq => by
    rw [prune, pruneAny_eq cs hq.2, Query.holds_or]
    by_cases h : cs.any (Query.holds truth) = true
    · rw [if_pos h, Query.trueBranches]
      exact Query.join?_of_ne_nil (Query.trueClauses_ne_nil h)
    · rw [if_neg h, Query.trueClauses_eq_nil (Bool.eq_false_iff.mpr h)]
      rfl

theorem pruneEach_eq : ∀ cs : List Query,
    Query.AllOverTerms (Decided e wanted offset truth) cs → pruneEach e wanted offset cs =
      if cs.all (Query.holds truth) then some (Query.trueClauses truth cs) else none
  | [], _ => rfl
  | c :: cs, hcs => by
    rw [pruneEach, prune_eq c hcs.1, pruneEach_eq cs hcs.2, List.all_cons, Query.trueClauses]
    by_cases hc : c.holds truth = true
    · by_cases h : cs.all (Query.holds truth) = true
      · simp only [hc, h, if_true, Bool.and_self]
      · simp only [hc, h, if_true, Bool.and_false, Bool.false_eq_true, if_false]
    · simp only [hc, Bool.false_and, Bool.false_eq_true, if_false]

theorem pruneAny_eq : ∀ cs : List Query,
    Query.AllOverTerms (Decided e wanted offset truth) cs →
      pruneAny e wanted offset cs = Query.trueClauses truth cs
  | [], _ => rfl
  | c :: cs, hcs => by
    rw [pruneAny, prune_eq c hcs.1, pruneAny_eq cs hcs.2, Query.trueClauses]
    by_cases hc : c.holds truth = true
    · simp only [hc, if_true]
    · simp only [hc, Bool.false_eq_true, if_false]

end

/-- Whether the offsets of wanted terms are those at which they are true. -/
abbrev Shows (e : PeriodEntry) (wanted : SortedSet String) (truth : Nat → Query → Bool)
    (field value : String) : Prop :=
  (Query.equals field value).text ∈ wanted ∧
    ∀ offset, e.hasOffset (Query.equals field value).text offset =
      truth offset (.equals field value)

theorem exists_plansOf (c : PlanConfig) {q : Query} {truth : Nat → Query → Bool}
    (hq : q.OverTerms (Shows e wanted truth)) :
    ∃ offsets : List Nat, offsets.Pairwise (· < ·) ∧
      (∀ o, o ∈ offsets ↔ q.holds (truth o) = true) ∧
      plansOf c q wanted e = offsets.filterMap fun o =>
        ShardPlan.ofShard? c (Shard.ofDay e.key o) (q.trueBranches (truth o)) := by
  have hbit : ∀ {o}, q.holds (truth o) = true → ∃ term, e.hasOffset term o = true := by
    intro o h
    obtain ⟨field, value, ⟨-, hshow⟩, ht⟩ := Query.exists_of_holds q hq h
    exact ⟨_, (hshow _).trans ht⟩
  rw [plansOf]
  split
  · next hempty =>
    refine ⟨[], .nil, fun o => ⟨fun h => absurd h List.not_mem_nil, fun h => ?_⟩, rfl⟩
    obtain ⟨term, hterm⟩ := hbit h
    rw [PeriodEntry.isEmpty_iff.mp hempty] at hterm
    cases hterm
  · refine ⟨(List.range' e.bounds.1 (e.bounds.2 + 1 - e.bounds.1)).filter fun o =>
      q.holds (truth o), (List.pairwise_lt_range' 1).sublist List.filter_sublist, fun o => ?_, ?_⟩
    · rw [List.mem_filter, List.mem_range'_1]
      apply and_iff_right_of_imp
      intro h
      obtain ⟨term, hterm⟩ := hbit h
      have := PeriodEntry.bounds_of_hasOffset hterm
      omega
    · rw [List.filterMap_filter]
      apply List.filterMap_congr
      intro o _
      have hdecided : q.OverTerms (Decided e wanted o (truth o)) :=
        hq.mono fun field value h => (mayHold_of_mem h.1).trans (h.2 o)
      rw [prune_eq q hdecided]
      split <;> rfl

end DayIndex

end ShardedSearch
