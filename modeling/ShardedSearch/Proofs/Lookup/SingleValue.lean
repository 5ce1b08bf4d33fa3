import ShardedSearch.Proofs.Index.Days
import ShardedSearch.Proofs.Lookup.Between

/-! # Two ways to look up a value

An equality starts in the qualifiers at the first day with a mark behind it, an interval from a
value to itself filters by day what it has read. So the equality misses what the index keeps
under the bare first day, and nothing else.
-/

namespace ShardedSearch

open Calendar (Date)
open Candidate
open Index.Layout (InDays shardOf)
open Store (Entry Scanner Table)

namespace Index.Layout

variable {first last : String} {id : ShardId}

/-- How an id compares with a day of the same length with a mark behind it is decided by its own
day, or else by what follows that. -/
theorem lt_day_mark_iff {day : String} {rest : List Char}
    (hid : id.toList = (Shard.dayOf id).toList ++ rest)
    (hlength : (Shard.dayOf id).toList.length = day.toList.length) :
    id < day ++ "_" ↔ Shard.dayOf id < day ∨ Shard.dayOf id = day ∧ rest < ['_'] := by
  rw [String.lt_iff, String.toList_append, hid, Text.append_lt_append_iff hlength,
    String.toList_inj, String.lt_iff]
  rfl

theorem day_mark_prefix_iff {day : String} {rest : List Char}
    (hid : id.toList = (Shard.dayOf id).toList ++ rest)
    (hlength : (Shard.dayOf id).toList.length = day.toList.length) :
    (day ++ "_").toList <+: id.toList ↔ Shard.dayOf id = day ∧ ['_'] <+: rest := by
  rw [String.toList_append, hid, ← String.toList_inj]
  constructor
  · rintro ⟨more, heq⟩
    rw [List.append_assoc] at heq
    obtain ⟨hday, hrest⟩ := List.append_inj heq hlength.symm
    exact ⟨hday.symm, more, hrest⟩
  · rintro ⟨hday, more, rfl⟩
    exact ⟨more, by rw [hday, List.append_assoc]; rfl⟩

theorem inDays_iff_of_toList_eq {rest : List Char}
    (hid : id.toList = (Shard.dayOf id).toList ++ rest)
    (hfirst : (Shard.dayOf id).toList.length = first.toList.length)
    (hlast : (Shard.dayOf id).toList.length = last.toList.length) :
    InDays first last id ↔
      ¬ (Shard.dayOf id < first ∨ Shard.dayOf id = first ∧ rest < ['_']) ∧
        ((Shard.dayOf id < last ∨ Shard.dayOf id = last ∧ rest < ['_']) ∨
          Shard.dayOf id = last ∧ ['_'] <+: rest) := by
  rw [InDays, lt_day_mark_iff hid hfirst, lt_day_mark_iff hid hlast, day_mark_prefix_iff hid hlast]

/-- Among days of eight digits and their shards, the text range of some days has those of the
days, but not the first day itself. -/
theorem inDays_iff_of_isDated (hid : Shard.IsDated id) (hfirst : first.toList.length = 8)
    (hlast : last.toList.length = 8) :
    InDays first last id ↔
      (¬ Shard.dayOf id < first ∧ ¬ last < Shard.dayOf id) ∧ id ≠ first := by
  have hle : Shard.dayOf id < last ∨ Shard.dayOf id = last ↔ ¬ last < Shard.dayOf id := by
    constructor
    · rintro (h | h)
      · exact KeyOrder.not_lt_of_lt h
      · exact h ▸ String.lt_irrefl _
    · exact fun h => (KeyOrder.lt_or_eq_of_not_lt h).imp_right Eq.symm
  rw [← hle]
  cases hday : Shard.isDay id with
  | true =>
    have heq := Shard.dayOf_of_isDay hday
    have hrest : id.toList = (Shard.dayOf id).toList ++ [] := by rw [heq, List.append_nil]
    have hlow : ([] : List Char) < ['_'] := List.nil_lt_cons _ _
    have hmark : ¬ ['_'] <+: ([] : List Char) := by simp
    rw [inDays_iff_of_toList_eq hrest (hid.1.trans hfirst.symm) (hid.1.trans hlast.symm)]
    simp only [hlow, hmark, and_true, and_false, or_false, not_or, heq, ne_eq]
    exact and_right_comm
  | false =>
    obtain ⟨rest, hrest⟩ := Shard.exists_toList_eq hday
    have hne : id ≠ first := by
      rintro rfl
      rw [hrest, List.length_append, hid.1] at hfirst
      simp at hfirst
    have hlow : ¬ Shard.mark :: rest < ['_'] := by simp [Shard.mark]
    have hmark : ['_'] <+: Shard.mark :: rest := ⟨rest, rfl⟩
    rw [inDays_iff_of_toList_eq hrest (hid.1.trans hfirst.symm) (hid.1.trans hlast.symm)]
    simp only [hlow, hmark, and_true, and_false, or_false, hne, ne_eq, not_false_eq_true]

end Index.Layout

namespace Lookup

variable {x : LookupContext} {place : Place} {p : Planner} {t : Table} {field value : String}
variable {q r : Query} {es : List Entry} {cs ds : List Candidate} {id : ShardId} {m : Matches}

/-! ### Streams of terms -/

theorem streamOf_equals (h : LooksUp x.config field) (place : Place) (value : String) :
    streamOf x place (.equals field value) =
      pure (term x place (.equals field value) field value) := by
  obtain ⟨hlooked, htype⟩ := h
  rw [Query.isLookedUp, Bool.and_eq_true, Bool.not_eq_true'] at hlooked
  have hknown : x.config.isKnown field = true := by
    rw [PlanConfig.isKnown, hlooked.1, Bool.or_true]
  have hindexed : x.config.isIndexed field = true := hlooked.1
  rw [Query.equals, streamOf]
  simp [equality, hlooked.2, htype, hknown, hindexed]

theorem await_term (hs : Sees x place (rangeOf x.config field value) t)
    (hv : ∀ e ∈ t.toList, IsUidList e.2) (hbatch : canHold (batchSize x) = true) (q : Query) :
    ∃ cs, (term x place q field value).await = pure (.leaf (.ofList q cs)) ∧
      ListsTotals q (termEntries x.config t field value) cs := by
  obtain ⟨s, hopen, hr⟩ := openScanner_rangeOf hs
  obtain ⟨cs, htotals, hlookup⟩ := ofTerm_of_returns hr (byShard_termEntries x.config t field value)
    (fun e he => hv e (List.mem_filter.mp he).1) q
  refine ⟨cs, ?_, htotals⟩
  simp only [term, hopen, holding_of_canHold hbatch, hlookup]
  exact Merge.Stream.await_pending q cs

/-! ### What is shown -/

/-- The shards that the stream of a clause lists and their records; nothing if there is no
stream. -/
def shown (x : LookupContext) (place : Place) (q : Query) : Option (List (ShardId × Matches)) :=
  match (lookUp x place q).run.value with
  | .ok s => some (s.drain.value.1.map fun c => (c.shard, c.evidence.found))
  | .error _ => none

theorem shown_of_shows (h : Shows x place q cs) :
    shown x place q = some (cs.map fun c => (c.shard, c.evidence.found)) := by
  obtain ⟨s, rest, hs, hdrain⟩ := h
  rw [shown, hs]
  change some (s.drain.value.1.map _) = _
  rw [hdrain]
  rfl

theorem ListsTotals.mem_iff (h : ListsTotals q es cs) :
    (id, m) ∈ cs.map (fun c => (c.shard, c.evidence.found)) ↔
      (∃ e ∈ es, shardOf e.1 = id) ∧ m = .ofLists (listsAt es id) ∧ m.isEmpty = false := by
  rw [List.mem_map]
  constructor
  · rintro ⟨c, hc, heq⟩
    obtain ⟨rfl, rfl⟩ := Prod.mk.inj heq
    obtain ⟨hentry, hne⟩ := (h.listed c.shard).mp ⟨c, hc, rfl⟩
    rw [(h.totals c hc).found]
    exact ⟨hentry, rfl, hne⟩
  · rintro ⟨hentry, rfl, hne⟩
    obtain ⟨c, hc, rfl⟩ := (h.listed id).mpr ⟨hentry, hne⟩
    exact ⟨c, hc, by rw [(h.totals c hc).found]⟩

theorem matches_filter_ne (hcs : ListsTotals q (es.filter (shardOf ·.1 ≠ id)) cs)
    (hds : ListsTotals r es ds) :
    cs.map (fun c => (c.shard, c.evidence.found)) =
      (ds.map fun c => (c.shard, c.evidence.found)).filter (·.1 ≠ id) := by
  have hasc : ∀ {cs : List Candidate}, Ascending cs →
      (cs.map fun c => (c.shard, c.evidence.found)).Pairwise (·.1 < ·.1) := fun h =>
    List.pairwise_map.mpr h
  refine eq_of_mem_iff_of_ascending (hasc hcs.ascending)
    ((hasc hds.ascending).sublist List.filter_sublist) fun ⟨j, m⟩ => ?_
  rw [hcs.mem_iff, List.mem_filter, hds.mem_iff, decide_eq_true_eq]
  by_cases hj : j = id
  · have hnone : ¬ ∃ e ∈ es.filter (shardOf ·.1 ≠ id), shardOf e.1 = j := by
      rintro ⟨e, he, hs⟩
      exact of_decide_eq_true (List.mem_filter.mp he).2 (hs.trans hj)
    exact iff_of_false (fun h => hnone h.1) fun h => h.2 hj
  · have hat : listsAt (es.filter (shardOf ·.1 ≠ id)) j = listsAt es j := by
      rw [listsAt, listsAt, valuesAt, valuesAt, List.filter_filter]
      congr 3
      funext e
      rw [Bool.and_eq_left_iff_imp]
      intro h
      exact decide_eq_true fun he => hj ((of_decide_eq_true h).symm.trans he)
    have hentry : (∃ e ∈ es.filter (shardOf ·.1 ≠ id), shardOf e.1 = j) ↔
        ∃ e ∈ es, shardOf e.1 = j := by
      refine exists_congr fun e => and_congr_left fun hs => ?_
      rw [List.mem_filter, decide_eq_true_eq]
      exact and_iff_left fun he => hj (hs.symm.trans he)
    rw [hat, hentry, and_iff_left hj]

theorem isBetween_self_iff {v : String} : IsBetween value value true true v ↔ v = value :=
  KeyOrder.not_lt_and_not_lt_iff

/-- The entries of a term are those between its value and itself, without the bare first day. -/
theorem termEntries_eq_filter (hids : ∀ e ∈ t.toList, Shard.IsDated (shardOf e.1))
    {c : PlanConfig} (hfirst : c.first.HasShortYear) (hlast : c.last.HasShortYear) :
    termEntries c t field value =
      (entriesBetween c t field value value true true).filter (shardOf ·.1 ≠ c.firstDay) := by
  rw [termEntries, entriesBetween, List.filter_filter]
  have hlength : ∀ {d : Date}, d.HasShortYear → d.text.toList.length = 8 := fun {d} h => by
    rw [Index.Layout.toList_text, Date.length_chars h]
  refine List.filter_congr fun e he => ?_
  have hdays : InDays c.firstDay c.lastDay e.1.qualifier ↔
      IsWithin c.firstDay c.lastDay e.1 ∧ shardOf e.1 ≠ c.firstDay :=
    (Index.Layout.inDays_shardOf_iff (Index.Layout.null_not_mem_text c.first)
      (Index.Layout.null_not_mem_text c.last)).symm.trans
    (Index.Layout.inDays_iff_of_isDated (hids e he) (hlength hfirst) (hlength hlast))
  rw [Bool.eq_iff_iff]
  simp only [Bool.and_eq_true, decide_eq_true_eq, Index.Layout.contains_termRange_iff, hdays,
    isBetween_self_iff]
  constructor
  · rintro ⟨⟨hrow, hfamily, hwithin, hne⟩, htype⟩
    exact ⟨hne, ⟨⟨hfamily, htype⟩, hrow⟩, hwithin⟩
  · rintro ⟨hne, ⟨⟨hfamily, htype⟩, hrow⟩, hwithin⟩
    exact ⟨⟨hrow, hfamily, hwithin, hne⟩, htype⟩

/-! ### Both ways -/

theorem shown_of_lost {s : Scanner} {l : Merge.Lookup} (hbatch : canHold (batchSize x) = false)
    (hs : streamOf x place q = pure (leaf q (.pending (holding (batchSize x) (.ok s) l)))) :
    shown x place q = none := by
  rw [holding, hbatch] at hs
  rw [shown, lookUp, hs]
  rfl

theorem not_isEmpty_rowsBetween_self (value : String) :
    ¬ (rowsBetween value value true true).isEmpty = true := by
  have hself : (rowsBetween value value true true).contains (.ofRow value) = true :=
    contains_rowsBetween_iff.mpr (isBetween_self_iff.mpr rfl)
  exact fun h => Store.Range.not_contains_of_isEmpty h hself

theorem shown_of_not_canHold (hp : HasUidLists p t)
    (hbatch : canHold (batchSize p.lookupContext) = false) (hfield : LooksUp p.config field)
    (hindexed : p.config.isIndexed field = true) (place : Place) (value : String) :
    shown p.lookupContext place (.equals field value) = none ∧
      shown p.lookupContext place (boundedRange field value value true true) = none := by
  constructor
  · have hstream : streamOf p.lookupContext place (.equals field value) = _ :=
      streamOf_equals hfield place value
    obtain ⟨s, hopen, -⟩ := openScanner_rangeOf
      (sees_of_hasUidLists hp place (rangeOf p.config field value))
    simp only [term, hopen] at hstream
    exact shown_of_lost hbatch hstream
  · have hstream : streamOf p.lookupContext place (boundedRange field value value true true) = _ :=
      streamOf_boundedRange hindexed place value value true true
    obtain ⟨s, hopen, -⟩ : ∃ s, openScanner p.lookupContext place field
        (rowsBetween value value true true) = .ok s ∧ s.Returns _ :=
      openScanner_of_sees (sees_of_hasUidLists hp place _)
    simp only [interval, if_neg (not_isEmpty_rowsBetween_self value), hopen] at hstream
    exact shown_of_lost hbatch hstream

/-- An equality shows what the interval from its value to itself shows, but not the bare first
day. -/
theorem equality_shows_all_but_first_day (hp : HasUidLists p t)
    (hids : ∀ e ∈ t.toList, Shard.IsDated (shardOf e.1))
    (hfirst : p.config.first.HasShortYear) (hlast : p.config.last.HasShortYear)
    (hfield : LooksUp p.config field) (place : Place) (value : String) :
    shown p.lookupContext place (.equals field value) =
      (shown p.lookupContext place (boundedRange field value value true true)).map
        (·.filter (·.1 ≠ p.config.firstDay)) := by
  have hindexed : p.config.isIndexed field = true := by
    have hlooked := hfield.1
    rw [Query.isLookedUp, Bool.and_eq_true] at hlooked
    exact hlooked.1
  cases hbatch : canHold (batchSize p.lookupContext) with
  | true =>
    obtain ⟨cs, hcs, hterm⟩ := await_term (sees_of_hasUidLists hp place _) hp.lists hbatch
      (.equals field value)
    obtain ⟨ds, hds, hbetween⟩ := await_interval
      (sees_of_hasUidLists hp place (rowsBetween value value true true)) hp.lists hbatch
      (boundedRange field value value true true) field
    rw [shown_of_shows (shows_of_await (streamOf_equals hfield place value) hcs),
      shown_of_shows (shows_of_await (streamOf_boundedRange hindexed place ..) hds),
      Option.map_some]
    change ListsTotals _ (termEntries p.config t field value) cs at hterm
    rw [termEntries_eq_filter hids hfirst hlast] at hterm
    exact congrArg some (matches_filter_ne hterm hbetween)
  | false =>
    obtain ⟨hequality, hinterval⟩ := shown_of_not_canHold hp hbatch hfield hindexed place value
    rw [hequality, hinterval]
    rfl

theorem equality_shows_twoDayIndex :
    shown (twoDayPlanner 2).lookupContext [] (.equals "A" "1") =
      (shown (twoDayPlanner 2).lookupContext [] (boundedRange "A" "1" "1" true true)).map
        (·.filter (·.1 ≠ (twoDayPlanner 2).config.firstDay)) :=
  equality_shows_all_but_first_day (hasUidLists_twoDayPlanner 2) (by decide)
    ⟨by decide, by decide⟩ ⟨by decide, by decide⟩ ⟨by decide, by decide⟩ [] "1"

/-- The bare first day is missing in the equality only. -/
theorem equality_misses_first_day :
    HasUidLists (twoDayPlanner 2) twoDayIndex ∧
      (∀ e ∈ twoDayIndex.toList, Shard.IsDated (shardOf e.1)) ∧
      (twoDayPlanner 2).config.first.HasShortYear ∧ (twoDayPlanner 2).config.last.HasShortYear ∧
      LooksUp (twoDayPlanner 2).config "A" ∧
      (shown (twoDayPlanner 2).lookupContext [] (.equals "A" "1")).map (·.map (·.1)) =
        some ["20240102_0", "20240103"] ∧
      (shown (twoDayPlanner 2).lookupContext [] (boundedRange "A" "1" "1" true true)).map
        (·.map (·.1)) = some ["20240102", "20240102_0", "20240103"] :=
  ⟨hasUidLists_twoDayPlanner 2, by decide, ⟨by decide, by decide⟩, ⟨by decide, by decide⟩,
    ⟨by decide, by decide⟩, by decide +kernel, by decide +kernel⟩

end Lookup

end ShardedSearch
