import ShardedSearch.Proofs.Pattern.Shard
import ShardedSearch.Proofs.Plan.Order
import ShardedSearch.Proofs.Store.Ranges

/-! # Rows of plans

No row is scanned for two plans of a run: their shards come in ascending order, none of them
of a day that was planned as a whole before.
-/

namespace ShardedSearch

open Shard (IsDated IsListable MayFollow)
open Store (Range)

/-! ### Rows of ids -/

namespace ShardPlan

variable {a b : ShardId}

/-- The rows of an id that the pattern admits: of a shard its own, of a day those of its
shards. -/
theorem contains_rangesOf_iff {pattern : Pattern} {k : Store.Key} :
    (∃ r ∈ rangesOf pattern a, r.contains k = true) ↔ pattern.occursIn a = true ∧
      if Shard.isDay a = true then Shard.covers a k.row = true else k.row = a := by
  rw [rangesOf]
  split
  · next hpattern =>
    simp only [List.mem_singleton, exists_eq_left, hpattern, true_and]
    split
    · next hday =>
      have hstart : (a ++ "_").toList = a.toList ++ [Shard.mark] := String.toList_append
      rw [Store.Range.contains_rowsFrom_iff, hstart, Shard.covers_iff, and_iff_right hday]
      refine exists_congr fun rest => ?_
      rw [List.append_assoc, eq_comm]
      rfl
    · exact Store.Range.contains_row_iff
  · next hpattern => simp [hpattern]

theorem row_of_mem_rangesOf {pattern : Pattern} {r : Range} {k : Store.Key}
    (h : r ∈ rangesOf pattern a) (hk : r.contains k = true) :
    k.row = a ∨ Shard.covers a k.row = true := by
  obtain ⟨-, hrow⟩ := contains_rangesOf_iff.mp ⟨r, h, hk⟩
  split at hrow
  · exact .inr hrow
  · exact .inl hrow

/-- A range of rows with a given start has just the keys of those rows, the range of a row has
those of that row, and the ranges of an id have those of its rows. Ids that the pattern does not
admit have none. -/
theorem ranges_hold_rows (start : String) (pattern : Pattern) (id : ShardId) (k : Store.Key) :
    ((Range.rowsFrom start).contains k = true ↔ start.toList <+: k.row.toList) ∧
      ((Range.row start).contains k = true ↔ k.row = start) ∧
      ((∃ r ∈ rangesOf pattern id, r.contains k = true) ↔ pattern.occursIn id = true ∧
        if Shard.isDay id = true then Shard.covers id k.row = true else k.row = id) :=
  ⟨Store.Range.contains_rowsFrom_iff, Store.Range.contains_row_iff, contains_rangesOf_iff⟩

/-- Last characters that none follows are left out of the bound, and it skips the gap. -/
example : Store.aboveStart? ['a', '\ud7ff', Char.ofNat 0x10ffff] = some ['a', '\ue000'] ∧
    Store.aboveStart? [Char.ofNat 0x10ffff] = none := by
  decide

theorem disjoint_rangesOf {pattern : Pattern} {r s : Range} (ha : IsDated a)
    (hab : MayFollow a b) (hr : r ∈ rangesOf pattern a) (hs : s ∈ rangesOf pattern b) :
    r.Disjoint s := by
  obtain ⟨hb, hlt⟩ := hab ha
  obtain ⟨hlt, hncov⟩ := Shard.precedes_iff.mp hlt
  rintro k ⟨hkr, hks⟩
  rcases row_of_mem_rangesOf hr hkr with rfl | hcov
  · rcases row_of_mem_rangesOf hs hks with heq | hcov'
    · exact String.lt_irrefl _ (heq ▸ hlt)
    · exact KeyOrder.not_lt_of_lt hlt (Shard.lt_of_covers hcov')
  · rcases row_of_mem_rangesOf hs hks with rfl | hcov'
    · rw [hcov] at hncov
      cases hncov
    · obtain ⟨-, hda, -⟩ := Shard.covers_iff_dayOf.mp hcov
      obtain ⟨-, hdb, -⟩ := Shard.covers_iff_dayOf.mp hcov'
      exact String.lt_irrefl _ ((hda.symm.trans hdb) ▸ hlt)

theorem pairwise_rangesOf (pattern : Pattern) (a : ShardId) :
    (rangesOf pattern a).Pairwise Range.Disjoint := by
  rw [rangesOf]
  split
  · exact List.pairwise_singleton ..
  · exact .nil

end ShardPlan

def PlanStream.ranges (n : Nat) (s : PlanStream) : List Range :=
  ((s.take n).1.filterMap Except.toOption).flatMap (·.ranges)

/-- The default pattern admits nothing of days before the year zero. -/
theorem Shard.isDated_of_admits {c : PlanConfig} {id : ShardId}
    (hpattern : Pattern.ofText? ({} : PlanSettings).idPattern = some c.idPattern)
    (hid : IsListable id) (h : c.admits id = true) : IsDated id := by
  refine hid.resolve_right fun ⟨cs, hcs⟩ => ?_
  rw [Pattern.ofText?_default, Option.some.injEq] at hpattern
  rw [PlanConfig.admits, ← hpattern, Pattern.not_shard_occursIn hcs (by decide)] at h
  cases h

namespace PlanRun

variable {x : LookupContext} {t : Store.Table} {q : Query} {r : PlanRun}

theorem exists_tracked_of_start (hrun : start x q = .ok r) (hx : Lookup.Opens x t)
    (h : ∀ c, Query.IsClauseOf c q.flatten → Lookup.NamesApart x.config x.counts t c) :
    r.config = x.config ∧ ∃ k, r.Tracked IsListable MayFollow k fun _ => True :=
  exists_tracked_of_arranged Shard.spacing hrun hx fun c hc => (h c hc).arranged

/-- No row is scanned for two plans of a run, and none twice for one, as long as no clause has
a source that names a day together with one of its shards. -/
theorem ranges_disjoint (hrun : start x q = .ok r)
    (hpattern : Pattern.ofText? ({} : PlanSettings).idPattern = some x.config.idPattern)
    (hx : Lookup.Opens x t)
    (h : ∀ c, Query.IsClauseOf c q.flatten → Lookup.NamesApart x.config x.counts t c)
    (n : Nat) : ((PlanStream.lookup r).ranges n).Pairwise Range.Disjoint := by
  obtain ⟨hconfig, k, htracked⟩ := exists_tracked_of_start hrun hx h
  obtain ⟨hplans, hpairs⟩ := plans_of_take htracked n
  rw [hconfig] at hplans
  refine List.pairwise_flatMap.mpr ⟨fun p hp => ?_, ?_⟩
  · rw [(hplans p hp).ranges]
    exact ShardPlan.pairwise_rangesOf _ _
  · refine hpairs.imp_of_mem fun hp hq hpq a ha b hb => ?_
    rw [(hplans _ hp).ranges] at ha
    rw [(hplans _ hq).ranges] at hb
    have hdated := Shard.isDated_of_admits hpattern (hplans _ hp).listable (hplans _ hp).admitted
    exact ShardPlan.disjoint_rangesOf hdated hpq ha hb

/-! ### Days and their shards -/

def dayIndex : Store.Table :=
  .ofList [(Index.Layout.termKey "1" "A" "20240102" "log", [1, 0, 1, 1, 117]),
    (Index.Layout.termKey "1" "A" "20240102_3" "log", [1, 0, 1, 1, 117]),
    (Index.Layout.termKey "2" "A" "20240102" "log", [1, 0, 1, 1, 117])]

def dayPlanner : Planner where
  store := ⟨.ofList [("shardIndex", dayIndex)], .empty, fun _ _ => none⟩
  config := ⟨{}, .empty, ⟨2024, 1, Calendar.Date.small.year_mem, by decide⟩, .small, by decide,
    .ofList ["A"], .empty, .empty, .shard⟩
  counts := .ofList []

theorem opens_dayPlanner : Lookup.Opens dayPlanner.lookupContext dayIndex := by
  intro place s hs
  obtain rfl := Except.ok.inj hs
  exact ⟨"shardIndex", _, rfl⟩

def dayQuery : Query := .or [.equals "A" "2", .hint "20240102_3,20240103"]

theorem namesApart_dayQuery {c : Query} (h : Query.IsClauseOf c dayQuery.flatten) :
    Lookup.NamesApart dayPlanner.config dayPlanner.counts dayIndex c := by
  have hflat : dayQuery.flatten = .or [.equals "A" "2", .hint "20240102_3,20240103"] := by decide
  rw [hflat] at h
  cases h with
  | self => exact ⟨fun _ h => (nomatch h), fun _ _ h _ => (nomatch h)⟩
  | or hd hc =>
    rcases List.mem_pair.mp hd with rfl | rfl
    · have hids : ∀ e ∈ Lookup.termEntries dayPlanner.config dayIndex "A" "2",
          Index.Layout.shardOf e.1 = "20240102" := by decide +kernel
      obtain rfl : c = .equals "A" "2" := by cases hc; rfl
      refine .of_mem ["20240102"] ?_ (by decide) (by decide)
      rintro _ ⟨he⟩
      exact List.mem_singleton.mpr (hids _ he)
    · have hids : ∀ id ∈ Lookup.hintedShards "20240102_3,20240103" dayPlanner.counts,
          id ∈ ["20240102_3", "20240103"] := by decide +kernel
      obtain rfl : c = .hint "20240102_3,20240103" := by cases hc; rfl
      refine .of_mem ["20240102_3", "20240103"] ?_ (by decide) (by decide)
      intro id hid
      cases hid with
      | hint h => exact hids id h

theorem ranges_disjoint_dayQuery :
    ∃ run, start dayPlanner.lookupContext dayQuery = .ok run ∧
      ((PlanStream.lookup run).ranges 5).Pairwise Range.Disjoint := by
  have hstart : (start dayPlanner.lookupContext dayQuery).toOption.isSome = true := by
    decide +kernel
  cases hrun : start dayPlanner.lookupContext dayQuery with
  | error e =>
    rw [hrun] at hstart
    cases hstart
  | ok run =>
    exact ⟨run, rfl, ranges_disjoint hrun Pattern.ofText?_default opens_dayPlanner
      (fun _ hc => namesApart_dayQuery hc) 5⟩

def OverlapsInDays (q : Query) : Prop :=
  ∃ run, start dayPlanner.lookupContext q = .ok run ∧
    Pattern.ofText? ({} : PlanSettings).idPattern = some dayPlanner.config.idPattern ∧
    ¬ ((PlanStream.lookup run).ranges 5).Pairwise Range.Disjoint

theorem overlapsInDays_of_ranges (h : (start dayPlanner.lookupContext q).toOption.map
    (fun run => (PlanStream.lookup run).ranges 5) =
      some [.rowsFrom "20240102_", .row "20240102_3"]) : OverlapsInDays q := by
  obtain ⟨run, hrun, hrows⟩ := exists_of_map_toOption h
  refine ⟨run, hrun, Pattern.ofText?_default, fun hpairs => ?_⟩
  rw [hrows] at hpairs
  have hdisjoint := (List.pairwise_cons.mp hpairs).1 _ List.mem_cons_self
  exact hdisjoint (.ofRow "20240102_3") (by decide)

/-- A row may be scanned for two plans if a source names a day and one of its shards, be it a
term, an interval or a hint; and also beside a hint with an id that is not of a day. -/
theorem overlaps_of_day_with_shard :
    OverlapsInDays (.equals "A" "1") ∧
      OverlapsInDays (.marked .boundedRange [.range "A" "1" "1" true true]) ∧
      OverlapsInDays (.hint "20240102,20240102_3") ∧
      OverlapsInDays (.or [.equals "A" "2", .hint "2024010200x,20240102_3"]) :=
  ⟨overlapsInDays_of_ranges (by decide +kernel), overlapsInDays_of_ranges (by decide +kernel),
    overlapsInDays_of_ranges (by decide +kernel), overlapsInDays_of_ranges (by decide +kernel)⟩

end PlanRun

end ShardedSearch
