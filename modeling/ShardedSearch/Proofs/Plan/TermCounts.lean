import ShardedSearch.Proofs.Lookup.Mentions
import ShardedSearch.Proofs.Plan.Soundness

/-! # Term counts of plans

A plan has the count of a term as often as the term is written in the clauses that its evidence
comes from. So it has the number of records that the index has for the term only if that is
once, or if adding does not change it.
-/

namespace ShardedSearch

open Lookup
open Merge (Stream)
open Store (Table)

theorem ShardPlan.termCounts_of_make? {c : PlanConfig} {id : ShardId} {q : Query} {counts : Counts}
    {p : ShardPlan} (h : make? c id q counts = some p) :
    p.termCounts = if c.settings.plans.termCounts then counts.terms else .empty :=
  (make?_eq_some_iff.mp h).termCounts

namespace PlanRun

variable {p : Planner} {t : Table} {q : Query} {run : PlanRun} {pl : ShardPlan} {s : Stream}

theorem emits_of_rootContext (hp : HasIndex p t) (h : IsStreamOf p q s)
    (hctx : rootContext q s.context = .present) : ∃ cs, s.Emits cs ∧ CountsMentions p t q cs := by
  unfold rootContext at hctx
  split at hctx
  · next hmixed => exact emits_of_mixed_and hp h hmixed
  · cases hctx
  · exact emits_of_present hp h hctx

theorem termCounts_of_plan (hp : HasIndex p t) (hq : q.isTermwise = true)
    (hcollect : p.config.settings.plans.termCounts = true)
    (hrun : start p.lookupContext q = .ok run)
    (hpl : .ok pl ∈ (PlanStream.lookup run).drain.1) :
    pl.termCounts = (Counts.ofTerms (recordedCount p.config t pl.shard)
      (mentionsAt p.config t pl.shard q.flatten)).terms := by
  obtain ⟨root, hvalue, heq⟩ := eq_of_start hrun
  have hstream : IsStreamOf p q.flatten root :=
    ⟨Query.isFlat_flatten q, Query.isTermwise_flatten q hq, [], hvalue⟩
  obtain ⟨hroot, -⟩ := realises_of_lookUp hp hstream.flat hstream.termwise hvalue
  by_cases hctx : rootContext q.flatten root.context = .present
  · obtain ⟨cs, hcs, hcounts⟩ := emits_of_rootContext hp hstream hctx
    obtain ⟨hemits, -, hconfig⟩ := emits_of_start hrun hroot hctx hcs
    rw [drain_of_emits hemits, hconfig, PlanStream.ok_mem_map_ok_iff] at hpl
    obtain ⟨k, hk, hmake⟩ := List.mem_filterMap.mp hpl
    rw [ShardPlan.termCounts_of_make? hmake, ShardPlan.shard_of_make? hmake, hcounts k hk]
    exact if_pos hcollect
  · have hnone : (PlanStream.lookup run).drain.1 = [] := by
      refine drain_of_root_eq_none ?_ ?_
      · rw [heq]
        exact if_neg hctx
      · rw [heq, show rootOf p.lookupContext q.flatten = pure root from hroot]
        rfl
    rw [hnone] at hpl
    cases hpl

theorem min_mul_eq_iff {k r m : Nat} (hk : 0 < k) (hr : r ≤ m) :
    min (k * r) m = r ↔ k = 1 ∨ r = 0 ∨ r = m := by
  by_cases hone : k = 1
  · simp [hone, hr]
  · have hmul : 2 * r ≤ k * r := Nat.mul_le_mul_right r (by omega)
    by_cases hzero : r = 0
    · simp [hzero]
    · omega

/-- A plan counts the records of a term once for every mention of it in the clauses that its
evidence comes from, up to the greatest count: it has their number if there is one mention, no
record, or the greatest count anyway, and else it has more. -/
theorem termCounts_of_start (hp : HasIndex p t) (hq : q.isTermwise = true)
    (hcollect : p.config.settings.plans.termCounts = true)
    (hrun : start p.lookupContext q = .ok run)
    (hpl : .ok pl ∈ (PlanStream.lookup run).drain.1) :
    let mentions := mentionsAt p.config t pl.shard q.flatten
    let recorded := recordedCount p.config t pl.shard
    (∀ text n, pl.termCounts.get? text = some n ↔ ∃ field value,
      text = (Query.equals field value).text ∧ (field, value) ∈ mentions ∧
        n = min (mentions.count (field, value) * recorded field value) maxCount) ∧
    ∀ field value, (field, value) ∈ mentions →
      (pl.termCounts.get? (Query.equals field value).text = some (recorded field value) ↔
        mentions.count (field, value) = 1 ∨ recorded field value = 0 ∨
          recorded field value = maxCount) := by
  intro mentions recorded
  have hcounts : pl.termCounts = (Counts.ofTerms recorded mentions).terms :=
    termCounts_of_plan hp hq hcollect hrun hpl
  have hle : ∀ field value, recorded field value ≤ maxCount := fun _ _ => Nat.min_le_right _ _
  have hget : ∀ field value, pl.termCounts.get? (Query.equals field value).text =
      if (field, value) ∈ mentions then
        some (min (mentions.count (field, value) * recorded field value) maxCount)
      else none := fun field value => by rw [hcounts, Counts.get?_ofTerms recorded hle]
  refine ⟨fun text n => ⟨fun h => ?_, ?_⟩, fun field value hmem => ?_⟩
  · obtain ⟨⟨field, value⟩, hmem, rfl⟩ := Counts.exists_of_get?_ofTerms recorded (hcounts ▸ h)
    rw [hget, if_pos hmem] at h
    exact ⟨field, value, rfl, hmem, (Option.some.inj h).symm⟩
  · rintro ⟨field, value, rfl, hmem, rfl⟩
    rw [hget, if_pos hmem]
  · rw [hget, if_pos hmem, Option.some.injEq]
    exact min_mul_eq_iff (List.count_pos_iff.mpr hmem) (hle field value)

/-! ### A repeated term -/

def repeatedQuery : Query := .and [.equals "A" "1", .equals "A" "1"]

theorem exists_plan_repeatedQuery : ∃ run pl,
    start (smallPlanner 2).lookupContext repeatedQuery = .ok run ∧
      .ok pl ∈ (PlanStream.lookup run).drain.1 ∧ pl.shard = "20240102_0" ∧
      pl.termCounts.get? (Query.equals "A" "1").text = some 2 := by
  have hplan : ((start (smallPlanner 2).lookupContext repeatedQuery).toOption.map fun run =>
      ((PlanStream.lookup run).drain.1.head?.bind (·.toOption)).map fun pl =>
        (pl.shard, pl.termCounts.get? (Query.equals "A" "1").text)) =
      some (some ("20240102_0", some 2)) := by decide +kernel
  obtain ⟨run, hrun, hplan⟩ := exists_of_map_toOption hplan
  obtain ⟨pl, hpl, hpair⟩ := Option.map_eq_some_iff.mp hplan
  obtain ⟨r, hr, hok⟩ := Option.bind_eq_some_iff.mp hpl
  obtain ⟨hshard, hcount⟩ := Prod.mk.inj hpair
  cases r with
  | error e => cases hok
  | ok pl' =>
    obtain rfl : pl' = pl := Option.some.inj hok
    exact ⟨run, pl', hrun, List.mem_of_head? hr, hshard, hcount⟩

theorem termCounts_of_repeatedQuery : ∃ run pl,
    start (smallPlanner 2).lookupContext repeatedQuery = .ok run ∧
      .ok pl ∈ (PlanStream.lookup run).drain.1 ∧
      let mentions := mentionsAt (smallPlanner 2).config smallIndex pl.shard repeatedQuery.flatten
      let recorded := recordedCount (smallPlanner 2).config smallIndex pl.shard
      (∀ text n, pl.termCounts.get? text = some n ↔ ∃ field value,
        text = (Query.equals field value).text ∧ (field, value) ∈ mentions ∧
          n = min (mentions.count (field, value) * recorded field value) maxCount) ∧
      ∀ field value, (field, value) ∈ mentions →
        (pl.termCounts.get? (Query.equals field value).text = some (recorded field value) ↔
          mentions.count (field, value) = 1 ∨ recorded field value = 0 ∨
            recorded field value = maxCount) := by
  obtain ⟨run, pl, hrun, hpl, -⟩ := exists_plan_repeatedQuery
  exact ⟨run, pl, hrun, hpl, termCounts_of_start (hasIndex_smallPlanner 2) rfl rfl hrun hpl⟩

/-- The index has one record for the term, of which the plan counts two. -/
theorem termCounts_repeat_records : HasIndex (smallPlanner 2) smallIndex ∧
    repeatedQuery.allIndexed (smallPlanner 2).config.indexed = true ∧
    Query.datatypeField ∉ repeatedQuery.fieldList ∧
    (smallPlanner 2).config.settings.plans.termCounts = true ∧
    ∃ run pl, start (smallPlanner 2).lookupContext repeatedQuery = .ok run ∧
      .ok pl ∈ (PlanStream.lookup run).drain.1 ∧
      pl.termCounts.get? (Query.equals "A" "1").text = some 2 ∧
      recordedCount (smallPlanner 2).config smallIndex pl.shard "A" "1" = 1 := by
  obtain ⟨run, pl, hrun, hpl, hshard, hcount⟩ := exists_plan_repeatedQuery
  refine ⟨hasIndex_smallPlanner 2, by decide, by decide, rfl, run, pl, hrun, hpl, hcount, ?_⟩
  rw [hshard]
  decide +kernel

end PlanRun

end ShardedSearch
