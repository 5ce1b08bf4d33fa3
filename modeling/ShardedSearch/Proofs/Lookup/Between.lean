import ShardedSearch.Proofs.Lookup.Interval
import ShardedSearch.Proofs.Lookup.Pointwise
import ShardedSearch.Proofs.Lookup.Totals
import ShardedSearch.Proofs.Merge.Days
import ShardedSearch.Proofs.Merge.Seeking
import ShardedSearch.Proofs.Store.Ranges

/-! # Look-ups between two values

An interval lists the totals of all entries of its field with a value between its ends, an
accepted datatype and a day within the dates, whether the ends are included or not.
-/

namespace ShardedSearch

open Candidate
open Index (UidList)
open Index.Layout (shardOf)
open Merge (Leaf Stream)
open Store (Entry Key Range Scanner StoreError Table)

namespace Merge.Stream

variable {l : Leaf} {cs : List Candidate} {n : Nat}

theorem take_of_lists (h : l.Lists cs) (hn : cs.length < n) :
    ∃ m, (leaf l).take n = pure (cs, leaf m) := by
  induction n generalizing l cs with
  | zero => simp at hn
  | succ n ih =>
    obtain ⟨m, hm, hrest⟩ := Leaf.advance_of_lists h
    have hadvance : (leaf l).advance = pure (cs.head?, leaf m) :=
      congrArg (· >>= fun p => pure (p.1, leaf p.2)) hm
    rw [take, hadvance, pure_bind]
    cases cs with
    | nil => exact ⟨m, rfl⟩
    | cons c cs =>
      obtain ⟨k, hk⟩ := ih hrest (Nat.lt_of_succ_lt_succ hn)
      exact ⟨k, by simp only [List.head?_cons, List.tail_cons] at hk ⊢; rw [hk]; rfl⟩

theorem exists_drain_ofList (q : Query) (cs : List Candidate) :
    ∃ rest, (leaf (.ofList q cs)).drain = pure (cs, rest) := by
  cases cs with
  | nil => exact ⟨_, rfl⟩
  | cons c cs =>
    have hremaining : (leaf (.ofList q (c :: cs))).remaining = cs.length + 1 := by
      change (cs.map (none, ·)).length + 1 = _
      rw [List.length_map]
    obtain ⟨m, hm⟩ := take_of_lists (n := cs.length + 2) (Leaf.lists_ofList q c cs)
      (Nat.lt_succ_self _)
    refine ⟨leaf m, ?_⟩
    change (leaf (.ofList q (c :: cs))).take ((leaf (.ofList q (c :: cs))).remaining + 1) = _
    rw [hremaining, hm]

end Merge.Stream

namespace Lookup

variable {q : Query} {l : UidList} {ls : List UidList} {es ds : List Entry} {e : Entry}
variable {firstDay lastDay field lower upper : String} {li ui : Bool} {id : ShardId} {k : Key}
variable {found found' : SortedMap ShardId Evidence}

/-! ### Entries merged by shard -/

def mergedEvidence? (q : Query) : List UidList → Option Evidence
  | [] => none
  | l :: ls => some (mergedEvidence q l ls)

theorem termEvidence?_eq_filter (q : Query) (ls : List UidList) :
    termEvidence? q ls = (mergedEvidence? q ls).filter (!·.isEmpty) := by
  cases ls <;> rfl

theorem mergedEvidence?_append (q : Query) (ls : List UidList) (l : UidList) :
    mergedEvidence? q (ls ++ [l]) =
      some ((mergedEvidence? q ls).elim (.ofUids q l) (·.merge (.ofUids q l))) := by
  cases ls with
  | nil => rfl
  | cons k ls => simp [mergedEvidence?, mergedEvidence]

theorem listsAt_append (ds es : List Entry) (id : ShardId) :
    listsAt (ds ++ es) id = listsAt ds id ++ listsAt es id := by
  simp [listsAt, valuesAt, uidLists]

theorem listsAt_singleton (h : Wire.ofBytes e.2 = .ok l) :
    listsAt [e] id = if shardOf e.1 = id then [l] else [] := by
  rw [listsAt, valuesAt_cons]
  split
  · exact uidLists_cons h
  · rfl

def IsWithin (firstDay lastDay : String) (k : Key) : Prop :=
  ¬ Shard.dayOf (shardOf k) < firstDay ∧ ¬ lastDay < Shard.dayOf (shardOf k)

instance : Decidable (IsWithin firstDay lastDay k) := inferInstanceAs (Decidable (_ ∧ _))

theorem get?_addEntries (hfound : ∀ id, found.get? id = mergedEvidence? q (listsAt ds id))
    (hv : ∀ e ∈ es, IsUidList e.2) (h : addEntries q firstDay lastDay found es = .ok found') :
    ∀ id, found'.get? id =
      mergedEvidence? q (listsAt (ds ++ es.filter (IsWithin firstDay lastDay ·.1)) id) := by
  induction es generalizing ds found with
  | nil =>
    obtain rfl := Except.ok.inj h
    simpa using hfound
  | cons e es ih =>
    obtain ⟨l, hl⟩ := hv e List.mem_cons_self
    have hes := fun e' he => hv e' (List.mem_cons_of_mem e he)
    rw [addEntries, Evidence.ofValue, hl] at h
    by_cases hday : IsWithin firstDay lastDay e.1
    · rw [if_neg (not_or.mpr hday)] at h
      simp only [List.filter_cons, decide_eq_true hday, if_true]
      rw [List.append_cons]
      refine ih (fun id => ?_) hes h
      rw [SortedMap.get?_insertWith, listsAt_append, listsAt_singleton hl]
      by_cases hid : shardOf e.1 = id
      · rw [if_pos hid, if_pos hid.symm, mergedEvidence?_append, ← hfound, hid]
      · rw [if_neg hid, if_neg (Ne.symm hid), List.append_nil, hfound]
    · rw [if_pos (not_and_or.mp hday |>.imp not_not.mp not_not.mp)] at h
      simp only [List.filter_cons, decide_eq_false hday, Bool.false_eq_true, if_false]
      exact ih hfound hes h

theorem ascending_mergedCandidates (found : SortedMap ShardId Evidence) :
    Ascending (mergedCandidates found) :=
  List.pairwise_map.mp
    ((List.pairwise_map.mpr found.ascending).sublist (shards_mergedCandidates found))

theorem evidenceAt_mergedCandidates (found : SortedMap ShardId Evidence) (id : ShardId) :
    evidenceAt (mergedCandidates found) id = (found.get? id).filter (!·.isEmpty) := by
  refine Option.ext fun ev => ?_
  rw [evidenceAt_eq_some_iff (ascending_mergedCandidates found), Option.filter_eq_some_iff,
    SortedMap.get?_eq_some_iff, mergedCandidates, List.mem_map]
  constructor
  · rintro ⟨⟨id', ev'⟩, ha, heq⟩
    obtain ⟨rfl, rfl⟩ := Candidate.mk.inj heq
    exact List.mem_filter.mp ha
  · exact fun h => ⟨(id, ev), List.mem_filter.mpr h, rfl⟩

/-- An interval lists the totals of the entries within its days. -/
theorem ofInterval_of_returns {s : Scanner} (hr : s.Returns es) (hv : ∀ e ∈ es, IsUidList e.2)
    (q : Query) (firstDay lastDay : String) (n : Nat) :
    ∃ cs, ofInterval q firstDay lastDay n false (.ok s) = ⟨none, .ok (.ofList cs)⟩ ∧
      ListsTotals q (es.filter (IsWithin firstDay lastDay ·.1)) cs := by
  obtain ⟨found, hfound⟩ := exists_addEntries q firstDay lastDay .empty hv
  refine ⟨mergedCandidates found, ?_, ?_⟩
  · have hread : (Except.ok s : Except StoreError Scanner).bind (Batches.read n false) =
        .ok ⟨es, none⟩ := Batches.read_of_returns hr
    simp only [ofInterval, hread, hfound]
    rfl
  · refine listsTotals_of_evidenceAt (fun e he => hv e (List.mem_filter.mp he).1)
      (ascending_mergedCandidates found) fun id => ?_
    have hempty : ∀ id, (SortedMap.empty : SortedMap ShardId Evidence).get? id =
        mergedEvidence? q (listsAt [] id) := fun id => rfl
    have hget := get?_addEntries hempty hv hfound id
    rw [evidenceAt_mergedCandidates, hget, List.nil_append, termEvidence?_eq_filter]

/-! ### Rows between two values -/

def IsBetween (lower upper : String) (lowerIncluded upperIncluded : Bool) (value : String) :
    Prop :=
  (if lowerIncluded then ¬ value < lower else lower < value) ∧
    (if upperIncluded then ¬ upper < value else value < upper)

instance (value : String) : Decidable (IsBetween lower upper li ui value) :=
  inferInstanceAs (Decidable (_ ∧ _))

/-- The least row above a value is the value with a null behind it. -/
theorem contains_rowsBetween_iff :
    (rowsBetween lower upper li ui).contains k = true ↔ IsBetween lower upper li ui k.row := by
  rw [rowsBetween, Store.Range.contains_halfOpen_iff, Store.Key.lt_ofRow_iff,
    Store.Key.lt_ofRow_iff]
  refine and_congr ?_ ?_
  · cases li
    · simpa using Text.lt_append_null_iff.not_left
    · rfl
  · cases ui
    · rfl
    · exact Text.lt_append_null_iff

/-- The entries of a field between two values on the days of a configuration, with a datatype
that the settings accept. -/
def entriesBetween (c : PlanConfig) (t : Table) (field lower upper : String) (li ui : Bool) :
    List Entry :=
  t.toList.filter fun e =>
    e.1.family = field && acceptsType c.settings.lookup.datatypes e.1 &&
      decide (IsBetween lower upper li ui e.1.row) && decide (IsWithin c.firstDay c.lastDay e.1)

theorem filter_entriesIn (c : PlanConfig) (t : Table) :
    (entriesIn c t field (rowsBetween lower upper li ui)).filter
        (IsWithin c.firstDay c.lastDay ·.1) =
      entriesBetween c t field lower upper li ui := by
  rw [entriesIn, List.filter_filter, entriesBetween]
  refine List.filter_congr fun e _ => ?_
  have hrow : (rowsBetween lower upper li ui).contains e.1 =
      decide (IsBetween lower upper li ui e.1.row) := by
    rw [Bool.eq_iff_iff, contains_rowsBetween_iff, decide_eq_true_eq]
  rw [hrow, Bool.and_comm, Bool.and_comm (decide (IsBetween ..))]

/-! ### Streams of intervals -/

abbrev boundedRange (field lower upper : String) (li ui : Bool) : Query :=
  .marked .boundedRange [.range field lower upper li ui]

/-- Whether the stream of a clause at a place is made and comes to a list of candidates, without
an error. -/
def Shows (x : LookupContext) (place : Place) (q : Query) (cs : List Candidate) : Prop :=
  ∃ s rest, lookUp x place q = pure s ∧ s.drain = pure (cs, rest)

variable {x : LookupContext} {place : Place} {p : Planner} {t : Table} {cs : List Candidate}

theorem shows_of_await {s : Stream} (hs : streamOf x place q = pure s)
    (h : s.await = pure (.leaf (.ofList q cs))) : Shows x place q cs := by
  obtain ⟨rest, hrest⟩ := Merge.Stream.exists_drain_ofList q cs
  exact ⟨_, rest, by rw [lookUp, hs, pure_bind, h], hrest⟩

theorem streamOf_boundedRange (h : x.config.isIndexed field = true) (place : Place)
    (lower upper : String) (li ui : Bool) :
    streamOf x place (boundedRange field lower upper li ui) =
      pure (interval x place (boundedRange field lower upper li ui) field lower upper li ui) := by
  rw [streamOf, marked, if_pos h]
  rfl

theorem await_interval (hs : Sees x place (rowsBetween lower upper li ui) t)
    (hv : ∀ e ∈ t.toList, IsUidList e.2) (hbatch : canHold (batchSize x) = true) (q : Query)
    (field : String) :
    ∃ cs, (interval x place q field lower upper li ui).await = pure (.leaf (.ofList q cs)) ∧
      ListsTotals q (entriesBetween x.config t field lower upper li ui) cs := by
  rw [interval]
  split
  · next hempty =>
    have hnone : entriesBetween x.config t field lower upper li ui = [] := by
      rw [entriesBetween, List.filter_eq_nil_iff]
      intro e _ he
      simp only [Bool.and_eq_true, decide_eq_true_eq] at he
      exact Store.Range.not_contains_of_isEmpty hempty (contains_rowsBetween_iff.mpr he.1.2)
    refine ⟨[], rfl, ?_⟩
    rw [hnone]
    exact listsTotals_of_evidenceAt (by simp) .nil fun id => rfl
  · obtain ⟨s, hopen, hr⟩ := openScanner_of_sees hs
    obtain ⟨cs, hcs, htotals⟩ := ofInterval_of_returns hr
      (fun e he => hv e (List.mem_filter.mp he).1) q x.config.firstDay x.config.lastDay
      (batchSize x)
    refine ⟨cs, ?_, filter_entriesIn x.config t ▸ htotals⟩
    simp only [hopen, holding_of_canHold hbatch, hcs]
    exact Merge.Stream.await_pending q cs

/-- The stream of an interval lists the totals of the entries between its ends. -/
theorem interval_lists_totals (hp : HasUidLists p t)
    (hbatch : canHold (batchSize p.lookupContext) = true)
    (hfield : p.config.isIndexed field = true) (place : Place) (lower upper : String)
    (li ui : Bool) :
    ∃ cs, Shows p.lookupContext place (boundedRange field lower upper li ui) cs ∧
      ListsTotals (boundedRange field lower upper li ui)
        (entriesBetween p.config t field lower upper li ui) cs := by
  obtain ⟨cs, hcs, htotals⟩ := await_interval (sees_of_hasUidLists hp place _) hp.lists hbatch
    (boundedRange field lower upper li ui) field
  exact ⟨cs, shows_of_await (streamOf_boundedRange hfield place lower upper li ui) hcs, htotals⟩

/-! ### Two days -/

def twoDayIndex : Table :=
  .ofList [(Index.Layout.termKey "1" "A" "20240102" "log", [1, 0, 1, 1, 117]),
    (Index.Layout.termKey "1" "A" "20240102_0" "log", [1, 0, 1, 1, 117]),
    (Index.Layout.termKey "1" "A" "20240103" "log", [1, 0, 1, 1, 117])]

def twoDayPlanner (batchSize : Nat) : Planner where
  store := ⟨.ofList [("shardIndex", twoDayIndex)], .empty, fun _ _ => none⟩
  config := ⟨{ lookup := { batchSize } }, .empty, .small, Calendar.Date.small.next?.get rfl,
    by decide, .ofList ["A"], .empty, .empty, .shard⟩
  counts := .ofList []

theorem hasUidLists_twoDayPlanner (n : Nat) : HasUidLists (twoDayPlanner n) twoDayIndex where
  table := rfl
  available := SortedSet.not_mem_empty _
  unlimited _ := rfl
  lists := by
    have hvalue : ∀ e ∈ twoDayIndex.toList, e.2 = [1, 0, 1, 1, 117] := by decide
    exact fun e he => hvalue e he ▸ ⟨.exact ["u"], by decide⟩

theorem interval_lists_twoDayIndex :
    ∃ cs, Shows (twoDayPlanner 2).lookupContext [] (boundedRange "A" "0" "1" false true) cs ∧
      ListsTotals (boundedRange "A" "0" "1" false true)
        (entriesBetween (twoDayPlanner 2).config twoDayIndex "A" "0" "1" false true) cs :=
  interval_lists_totals (hasUidLists_twoDayPlanner 2) (by decide) (by decide) [] "0" "1" false true

/-- A batch that there is no memory for loses the stream of an interval, although there are
records. -/
theorem interval_lost_with_large_batch :
    HasUidLists (twoDayPlanner (2 ^ 64 - 1)) twoDayIndex ∧
      (twoDayPlanner (2 ^ 64 - 1)).config.isIndexed "A" = true ∧
      (Matches.ofLists (listsAt (entriesBetween (twoDayPlanner (2 ^ 64 - 1)).config twoDayIndex
        "A" "1" "1" true true) "20240102_0")).isEmpty = false ∧
      ¬ ∃ cs, Shows (twoDayPlanner (2 ^ 64 - 1)).lookupContext []
        (boundedRange "A" "1" "1" true true) cs := by
  refine ⟨hasUidLists_twoDayPlanner _, by decide, by decide +kernel, ?_⟩
  rintro ⟨cs, s, rest, hs, -⟩
  have hlost : lookUp (twoDayPlanner (2 ^ 64 - 1)).lookupContext []
      (boundedRange "A" "1" "1" true true) = throw (.error .abandoned) := rfl
  have hvalue : (Except.error (.error .abandoned) : Except Failure Stream) = .ok s :=
    congrArg Raising.value (hlost.symm.trans hs)
  cases hvalue

end Lookup

end ShardedSearch
