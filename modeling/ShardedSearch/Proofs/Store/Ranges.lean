import ShardedSearch.Proofs.Store.Scanning
import ShardedSearch.Proofs.Text.Order
import ShardedSearch.Store.Basic

/-! # Ranges of rows

The range of a row has the keys of that row. What a scanner has left of a range is what the
table has in it, restricted to the families that are fetched.
-/

namespace ShardedSearch.Store

variable {table row : String} {families : List String} {range : Range} {k : Key} {x : Entry}

theorem Range.contains_row_iff : (Range.row row).contains k = true ↔ k.row = row := by
  rw [Range.row, contains_halfOpen_iff, Key.lt_def, Key.lt_def]
  simp only [Key.ofRow, Text.not_lt_empty, and_false, or_false, Text.lt_append_null_iff]
  exact KeyOrder.not_lt_and_not_lt_iff

theorem foldl_fetchFamily (s : Scanner) (families : List String) :
    families.foldl (fun sc f => sc.fetchFamily f) s =
      { s with families := families.foldl (fun fs f => fs.insert f) s.families } := by
  induction families generalizing s with
  | nil => rfl
  | cons f fs ih =>
    rw [List.foldl_cons, ih]
    rfl

theorem left_fetchFamilies (t : Table) (limit : ReadLimit) :
    (families.foldl (fun sc f => sc.fetchFamily f)
        ((Scanner.ofTable table t limit).setRange range)).left =
      t.toList.filter fun e =>
        range.contains e.1 && (families.isEmpty || e.1.family ∈ families) := by
  have hmem : ∀ f, f ∈ families.foldl (fun fs f => fs.insert f) SortedSet.empty ↔
      f ∈ families := fun _ => SortedSet.mem_ofList
  have hempty : (families.foldl (fun fs f => fs.insert f) SortedSet.empty).isEmpty =
      families.isEmpty := by
    rw [Bool.eq_iff_iff, SortedSet.isEmpty_iff, List.isEmpty_iff, List.eq_nil_iff_forall_not_mem]
    exact forall_congr' fun f => not_congr (hmem f)
  rw [foldl_fetchFamily, Scanner.left]
  apply List.filter_congr
  intro x _
  change (!range.isAfter x.1 && (!range.isBefore x.1 && ((_ || decide (x.1.family ∈
    families.foldl (fun fs f => fs.insert f) SortedSet.empty)) && true))) = _
  rw [Range.contains, Bool.and_true, ← Bool.and_assoc]
  exact congrArg (_ && ·) (congrArg₂ (· || ·) hempty (decide_eq_decide.mpr (hmem _)))

theorem mem_left_fetchFamilies {t : Table} (limit : ReadLimit) :
    x ∈ (families.foldl (fun sc f => sc.fetchFamily f)
        ((Scanner.ofTable table t limit).setRange range)).left ↔
      x ∈ t.toList ∧ range.contains x.1 = true ∧ (families = [] ∨ x.1.family ∈ families) := by
  rw [left_fetchFamilies, List.mem_filter, Bool.and_eq_true, Bool.or_eq_true, List.isEmpty_iff,
    decide_eq_true_eq]

/-- A scan returns all entries of a range in some families, or it fails: exactly if the table
is not there or unavailable, or does not answer a read for each of them and one more. -/
theorem scanRange_eq_ok_iff {store : Store} {es : List Entry} :
    store.scanRange table families range = .ok es ↔
      table ∉ store.unavailable ∧ ∃ t, store.tables.get? table = some t ∧
        es = (t.toList.filter fun e =>
          range.contains e.1 && (families.isEmpty || e.1.family ∈ families)) ∧
        ∀ l ∈ store.readLimit table (some range), es.length < l := by
  rw [scanRange, openScanner]
  by_cases hoff : table ∈ store.unavailable
  · rw [if_pos hoff]
    exact iff_of_false nofun fun h => h.1 hoff
  rw [if_neg hoff]
  cases hget : store.tables.get? table with
  | none => exact iff_of_false nofun fun ⟨_, _, h, _⟩ => nomatch h
  | some t =>
    dsimp only
    have hleft := @left_fetchFamilies table families range t store.readLimit
    rw [foldl_fetchFamily] at hleft ⊢
    generalize hs : ({ (Scanner.ofTable table t store.readLimit).setRange range with
      families := _ } : Scanner) = s at hleft ⊢
    have hlimit : s.readLimit s.table s.range = store.readLimit table (some range) := hs ▸ rfl
    have hreads : s.reads = 0 := hs ▸ rfl
    have hasc : s.entries.Pairwise (·.1 < ·.1) := hs ▸ t.ascending
    have hsum : s.reads + s.left.length = s.left.length := by rw [hreads, Nat.zero_add]
    by_cases hall : ∀ l ∈ store.readLimit table (some range), s.left.length < l
    · obtain ⟨ending, s', hdrain, hok⟩ := Scanner.drain_of_lt hasc (by rwa [hlimit, hsum])
      rw [hdrain]
      split
      · next heq => exact absurd (congrArg (·.2.1) heq) (hok _)
      · next heq =>
        obtain ⟨rfl, -⟩ := Prod.mk.inj heq
        rw [Except.ok.injEq, eq_comm]
        refine ⟨fun he => ⟨hoff, t, rfl, he.trans hleft, he ▸ hall⟩, ?_⟩
        rintro ⟨-, t', ht', rfl, -⟩
        rw [hleft, Option.some.inj ht']
    · simp only [not_forall, Nat.not_lt] at hall
      obtain ⟨l, hl, hle⟩ := hall
      obtain ⟨es', err, s', hdrain⟩ := Scanner.drain_of_limit_le hasc (hlimit.trans hl)
        (hsum.symm ▸ hle)
      rw [hdrain]
      refine iff_of_false nofun ?_
      rintro ⟨-, t', ht', rfl, hlt⟩
      rw [← Option.some.inj ht', ← hleft] at hlt
      exact absurd (hlt l hl) (Nat.not_lt_of_le hle)

/-! ### Rows with a given start -/

theorem Key.lt_ofRow_iff : k < .ofRow row ↔ k.row < row := by
  rw [Key.lt_def]
  simp only [Key.ofRow, Text.not_lt_empty, and_false, or_false]

theorem not_lt_of_front {start s : String} (h : start.toList <+: s.toList) : ¬ s < start := by
  obtain ⟨rest, heq⟩ := h
  rw [String.lt_iff, ← heq]
  intro hlt
  have := (@Text.append_lt_append_iff start.toList start.toList rest [] rfl).mp
    (by simpa using hlt)
  rcases this with this | this
  · exact List.lt_irrefl _ this
  · exact List.not_lt_nil _ this.2

theorem Range.contains_onward_iff {start : Key} :
    (Range.onward start).contains k = true ↔ ¬ k < start := by
  rw [contains_iff, isAfter_iff rfl]
  exact and_iff_left Bool.false_ne_true

theorem Range.contains_rowsFrom_iff {start : String} :
    (Range.rowsFrom start).contains k = true ↔ start.toList <+: k.row.toList := by
  rw [Range.rowsFrom, Range.fromTo]
  split
  · next stop hstop =>
    rw [contains_halfOpen_iff, Key.lt_ofRow_iff, Key.lt_ofRow_iff, lt_rowAbove_iff hstop]
    constructor
    · rintro ⟨hlow, hhigh⟩
      exact hhigh.resolve_left hlow
    · intro hfront
      exact ⟨not_lt_of_front hfront, .inr hfront⟩
  · next hstop =>
    rw [contains_onward_iff, Key.lt_ofRow_iff]
    refine ⟨fun hlow => ?_, not_lt_of_front⟩
    have hnone := Option.map_eq_none_iff.mp hstop
    exact (lt_or_prefix_of_aboveStart?_eq_none hnone k.row.toList).resolve_left fun h =>
      hlow (String.lt_iff.mpr h)

theorem Range.not_contains_of_isEmpty {start stop : Key}
    (h : (Range.halfOpen start stop).isEmpty = true) :
    ¬ (Range.halfOpen start stop).contains k = true := by
  rw [contains_halfOpen_iff]
  rintro ⟨hlow, hhigh⟩
  change (if start = stop then true else decide (stop < start)) = true at h
  split at h
  · next heq => exact hlow (heq ▸ hhigh)
  · exact hlow (KeyOrder.trans hhigh (of_decide_eq_true h))

def Range.Disjoint (r s : Range) : Prop := ∀ k, ¬ (r.contains k = true ∧ s.contains k = true)

end ShardedSearch.Store
