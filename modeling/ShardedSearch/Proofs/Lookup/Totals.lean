import Mathlib.Algebra.GroupWithZero.Nat
import ShardedSearch.Lookup.Memory
import ShardedSearch.Proofs.Candidate.Agreement
import ShardedSearch.Proofs.Lookup.Batches
import ShardedSearch.Proofs.Lookup.Term

/-! # What uid lists come to

Uid lists that are merged one by one come to the union of their records, which is not known as
soon as one list does not keep its records, and to the sum of their counts, at most the greatest
count. A look-up that merges the entries of every shard lists these totals.
-/

namespace ShardedSearch

open Index (UidList)
def Matches.ofLists (ls : List UidList) : Matches :=
  if ls.any (·.ignore) then .unknown else .exact (.ofList (ls.flatMap (·.uids)))

def totalCount (ls : List UidList) : Nat := min (ls.map (·.count.toNat)).sum maxCount

theorem Matches.ofLists_append (ks ls : List UidList) :
    ofLists (ks ++ ls) = combine SortedSet.union (ofLists ks) (ofLists ls) := by
  rw [ofLists, ofLists, ofLists, List.any_append, List.flatMap_append]
  cases ks.any (·.ignore)
  · cases ls.any (·.ignore)
    · exact congrArg exact (SortedSet.ext fun _ => by simp [SortedSet.mem_union])
    · rfl
  · rfl

theorem totalCount_singleton (l : UidList) : totalCount [l] = l.count.toNat := by
  have hle : l.count.toNat ≤ maxCount := Nat.le_pred_of_lt l.count.toNat_lt
  simp [totalCount, hle]

theorem totalCount_append (ks ls : List UidList) :
    totalCount (ks ++ ls) = addCounts (totalCount ks) (totalCount ls) := by
  simp only [totalCount, addCounts, List.map_append, List.sum_append_nat]
  omega

theorem Counts.merge_single (q : Query) (m n : Nat) :
    (single q m).merge (single q n) = single q (addCounts m n) := by
  have hmap : ∀ k : String, (SortedMap.empty.insert k m).mergeWith addCounts
      (SortedMap.empty.insert k n) = SortedMap.empty.insert k (addCounts m n) := by
    refine fun k => SortedMap.ext_get? fun j => ?_
    rw [SortedMap.get?_mergeWith, SortedMap.get?_insert, SortedMap.get?_insert,
      SortedMap.get?_insert]
    split <;> rfl
  rw [merge, single, single, single, hmap]
  cases q.field? with
  | none => rfl
  | some field => exact congrArg (mk _) (hmap field)

namespace Lookup

open Store (Entry Range ReadLimit Scanner StoreError Table)
open Candidate

variable {q : Query} {l : UidList} {ks ls : List UidList} {ev : Evidence}
variable {es : List Entry} {cs : List Candidate} {id : ShardId}

/-- Whether evidence is what uid lists come to, with their count under a clause. -/
structure Totals (q : Query) (ls : List UidList) (e : Evidence) : Prop where
  found : e.found = .ofLists ls
  counts : e.counts = .single q (totalCount ls)

theorem totals_ofUids (q : Query) (l : UidList) : Totals q [l] (.ofUids q l) where
  found := by
    rw [Matches.ofLists, List.any_cons, List.any_nil, Bool.or_false, List.flatMap_singleton]
    rfl
  counts := by
    rw [totalCount_singleton]
    rfl

theorem Totals.merge (h : Totals q ks ev) (l : UidList) :
    Totals q (ks ++ [l]) (ev.merge (.ofUids q l)) where
  found := by
    rw [Matches.ofLists_append, ← h.found, ← (totals_ofUids q l).found]
    rfl
  counts := by
    rw [totalCount_append, ← Counts.merge_single, ← h.counts, ← (totals_ofUids q l).counts]
    simp [Evidence.merge, Evidence.disj, Evidence.combine]

theorem totals_mergedEvidence (q : Query) (l : UidList) (ls : List UidList) :
    Totals q (l :: ls) (mergedEvidence q l ls) := by
  have hfold : ∀ (ks : List UidList) (ev : Evidence), Totals q ks ev →
      Totals q (ks ++ ls) (ls.foldl (fun e l => e.merge (.ofUids q l)) ev) := by
    induction ls with
    | nil => exact fun ks ev h => by simpa using h
    | cons k ls ih =>
      intro ks ev h
      have hrest := ih (ks ++ [k]) _ (h.merge k)
      rwa [List.append_assoc] at hrest
  exact hfold [l] _ (totals_ofUids q l)

theorem termEvidence?_eq_some_iff :
    termEvidence? q ls = some ev ↔
      ∃ k ks, ls = k :: ks ∧ ev = mergedEvidence q k ks ∧
        (Matches.ofLists ls).isEmpty = false := by
  cases ls with
  | nil => simp [termEvidence?]
  | cons l ls =>
    rw [termEvidence?, Option.filter_eq_some_iff, Evidence.isEmpty]
    constructor
    · rintro ⟨hev, hne⟩
      obtain rfl := Option.some.inj hev
      rw [(totals_mergedEvidence q l ls).found] at hne
      exact ⟨l, ls, rfl, rfl, by simpa using hne⟩
    · rintro ⟨k, ks, heq, rfl, hne⟩
      obtain ⟨rfl, rfl⟩ := List.cons.inj heq
      refine ⟨rfl, ?_⟩
      rw [(totals_mergedEvidence q l ls).found, hne]
      rfl

theorem totals_of_termEvidence? (h : termEvidence? q ls = some ev) : Totals q ls ev := by
  obtain ⟨k, ks, rfl, rfl, -⟩ := termEvidence?_eq_some_iff.mp h
  exact totals_mergedEvidence q k ks

theorem isSome_termEvidence?_iff :
    (termEvidence? q ls).isSome = true ↔ ls ≠ [] ∧ (Matches.ofLists ls).isEmpty = false := by
  rw [Option.isSome_iff_exists]
  constructor
  · rintro ⟨ev, hev⟩
    obtain ⟨k, ks, rfl, -, hne⟩ := termEvidence?_eq_some_iff.mp hev
    exact ⟨List.cons_ne_nil k ks, hne⟩
  · rintro ⟨hls, hne⟩
    obtain ⟨k, ks, rfl⟩ := List.exists_cons_of_ne_nil hls
    exact ⟨_, termEvidence?_eq_some_iff.mpr ⟨k, ks, rfl, rfl, hne⟩⟩

/-- Whether candidates are the totals of entries: in strictly ascending order, one for each
shard with entries whose records are not known to be none. A clause that is no disjunction is
what is left to evaluate. -/
structure ListsTotals (q : Query) (es : List Entry) (cs : List Candidate) : Prop where
  ascending : Ascending cs
  listed : ∀ id, (∃ c ∈ cs, c.shard = id) ↔
    (∃ e ∈ es, Index.Layout.shardOf e.1 = id) ∧ (Matches.ofLists (listsAt es id)).isEmpty = false
  totals : ∀ c ∈ cs, Totals q (listsAt es c.shard) c.evidence
  query : q.disjuncts = [q] → ∀ c ∈ cs, c.evidence.query = q

theorem listsAt_ne_nil_iff (hv : ∀ e ∈ es, IsUidList e.2) :
    listsAt es id ≠ [] ↔ ∃ e ∈ es, Index.Layout.shardOf e.1 = id := by
  have hnil : listsAt es id = [] ↔ valuesAt es id = [] := by
    rw [listsAt, uidLists, List.filterMap_eq_nil_iff]
    refine ⟨fun h => List.eq_nil_iff_forall_not_mem.mpr fun v hm => ?_, fun h => by simp [h]⟩
    obtain ⟨e, he, rfl⟩ := List.mem_map.mp hm
    obtain ⟨l, hl⟩ := hv e (List.mem_filter.mp he).1
    have := h _ hm
    rw [hl] at this
    cases this
  rw [ne_eq, hnil, valuesAt_eq_nil_iff]
  push Not
  rfl

theorem listsTotals_of_evidenceAt (hv : ∀ e ∈ es, IsUidList e.2) (hcs : Ascending cs)
    (hat : ∀ id, evidenceAt cs id = termEvidence? q (listsAt es id)) : ListsTotals q es cs := by
  have hterm : ∀ c ∈ cs, termEvidence? q (listsAt es c.shard) = some c.evidence := fun c hc =>
    (hat c.shard).symm.trans ((evidenceAt_eq_some_iff hcs).mpr hc)
  refine ⟨hcs, fun id => ?_, fun c hc => totals_of_termEvidence? (hterm c hc), fun hq c hc =>
    query_of_termEvidence? hq (hterm c hc)⟩
  rw [← isSome_evidenceAt_iff, hat, isSome_termEvidence?_iff, listsAt_ne_nil_iff hv]

/-! ### Entries of one term -/

/-- The look-up of a term lists the totals of its entries, whatever the size of a batch. -/
theorem ofTerm_of_returns {s : Scanner} (hr : s.Returns es) (hby : ByShard es)
    (hv : ∀ e ∈ es, IsUidList e.2) (q : Query) :
    ∃ cs, ListsTotals q es cs ∧ ∀ n, ofTerm q n false (.ok s) = ⟨none, .ok (.ofList cs)⟩ := by
  obtain ⟨hasc, hat⟩ := evidenceAt_termCandidates (q := q) hby
  refine ⟨_, listsTotals_of_evidenceAt hv hasc hat, fun n => ?_⟩
  have hread : (Except.ok s : Except StoreError Scanner).bind (Batches.read n false) =
      .ok ⟨es, none⟩ := Batches.read_of_returns hr
  rw [ofTerm, hread]
  exact congrArg (Merge.Lookup.mk none) (congrArg Except.ok (termSource_eq hby hv))

structure IsTermTable (t : Table) (field value : String) : Prop where
  row : ∀ e ∈ t.toList, e.1.row = value
  family : ∀ e ∈ t.toList, e.1.family = field
  lists : ∀ e ∈ t.toList, IsUidList e.2

abbrev scannerOf (name : String) (t : Table) (limit : ReadLimit) (range : Range) : Scanner :=
  (Scanner.ofTable name t limit).setRange range

abbrev lookUpTerm (q : Query) (n : Nat) (s : Scanner) : Merge.Lookup :=
  holding n (.ok s) (ofTerm q n false (.ok s))

variable {name : String} {t : Table} {limit : ReadLimit} {range : Range} {field value : String}

/-- Batches of any size that there is memory for lead to the same candidates, the totals of the
entries in the range. -/
theorem term_lists_totals (ht : IsTermTable t field value)
    (hlimit : limit name (some range) = none) (q : Query) :
    ∃ cs, ListsTotals q (t.toList.filter (range.contains ·.1)) cs ∧
      ∀ n, canHold n = true →
        lookUpTerm q n (scannerOf name t limit range) = ⟨none, .ok (.ofList cs)⟩ := by
  have hreturns : (scannerOf name t limit range).Returns (t.toList.filter (range.contains ·.1)) :=
    ⟨t.ascending, hlimit, Scanner.left_setRange name t limit range⟩
  have hmem : ∀ e ∈ t.toList.filter (range.contains ·.1), e ∈ t.toList := fun e he =>
    (List.mem_filter.mp he).1
  have hby := byShard_of_ascending (t.ascending.sublist List.filter_sublist)
    fun e he => ⟨ht.row e (hmem e he), ht.family e (hmem e he)⟩
  obtain ⟨cs, htotals, hlookup⟩ :=
    ofTerm_of_returns hreturns hby (fun e he => ht.lists e (hmem e he)) q
  exact ⟨cs, htotals, fun n hn => by rw [lookUpTerm, holding_of_canHold hn, hlookup]⟩

/-- Two datatypes of one shard, of which one does not keep its records, and another shard. -/
def mixedTable : Table :=
  .ofList [(Index.Layout.termKey "1" "A" "20240102_0" "csv", [1, 0, 1, 1, 117]),
    (Index.Layout.termKey "1" "A" "20240102_0" "log", [7, 1, 0]),
    (Index.Layout.termKey "1" "A" "20240102_1" "log", [1, 0, 1, 1, 118])]

abbrev mixedScanner : Scanner :=
  scannerOf "shardIndex" mixedTable (fun _ _ => none) (.rowsFrom "1")

theorem isTermTable_mixedTable : IsTermTable mixedTable "A" "1" where
  row := by decide
  family := by decide
  lists := by
    intro e he
    have hmem : e.2 ∈ [[1, 0, 1, 1, 117], [7, 1, 0], [1, 0, 1, 1, 118]] :=
      List.mem_map_of_mem he
    simp only [List.mem_cons, List.not_mem_nil, or_false] at hmem
    rcases hmem with h | h | h
    · exact h ▸ ⟨.exact ["u"], by decide⟩
    · exact h ▸ ⟨.counted 7, by decide⟩
    · exact h ▸ ⟨.exact ["v"], by decide⟩

theorem term_lists_mixedTable :
    ∃ cs, ListsTotals (.equals "A" "1")
        (mixedTable.toList.filter (Range.contains (.rowsFrom "1") ·.1)) cs ∧
      ∀ n, canHold n = true →
        lookUpTerm (.equals "A" "1") n mixedScanner = ⟨none, .ok (.ofList cs)⟩ :=
  term_lists_totals isTermTable_mixedTable rfl (.equals "A" "1")

/-- A batch that there is no memory for loses the candidates that smaller batches lead to. -/
theorem term_lost_with_large_batch :
    IsTermTable mixedTable "A" "1" ∧ 2 ^ 64 - 1 < UInt64.size ∧
      lookUpTerm (.equals "A" "1") (2 ^ 64 - 1) mixedScanner = ⟨none, .error .abandoned⟩ ∧
      ∃ source, lookUpTerm (.equals "A" "1") 1 mixedScanner = ⟨none, .ok source⟩ ∧
        source.items.map (·.2.shard) = ["20240102_0", "20240102_1"] :=
  ⟨isTermTable_mixedTable, by decide, rfl, _, rfl, by decide +kernel⟩

end Lookup

end ShardedSearch
