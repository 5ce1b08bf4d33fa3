import ShardedSearch.Proofs.Calendar.Date
import ShardedSearch.Proofs.DayIndex.Scan
import ShardedSearch.Proofs.Store.Ranges

/-! # Scans of years

The scan of a year adds up the wanted entries of the year. The days that it leaves to be scanned
are those on which it has an offset of a wanted term, all of the year if it fails.
-/

namespace ShardedSearch.DayIndex

open Calendar (Date)
open Index (Bitmap PeriodEntry)
open Index.Layout (periodRow)
open Store (Entry Range Scanner StoreError)

variable {store : Store} {table field value : String} {terms : Terms} {year : Int}
variable {families : List String} {range : Range} {ranges : List Range} {x : Entry}
variable {xs : List Entry} {r : Option PeriodEntry}

/-! ### Entries of ranges -/

theorem mem_scanRange (h : store.scanRange table families range = .ok xs) :
    x ∈ xs ↔ x ∈ (bitmapsOf store table).toList ∧ range.contains x.1 = true ∧
      (families = [] ∨ x.1.family ∈ families) := by
  unfold Store.scanRange at h
  split at h
  · cases h
  · next s hopen =>
    obtain rfl := exists_of_openScanner hopen
    split at h
    · cases h
    · next es ending s' hok hdrain =>
      obtain rfl := Except.ok.inj h
      rw [← Store.mem_left_fetchFamilies store.readLimit]
      rw [Scanner.readMany_of_not_failed ?_ ?_ hdrain hok]
      · rw [Store.foldl_fetchFamily]
        exact (bitmapsOf store table).ascending
      · exact Nat.lt_succ_of_le (List.length_filter_le ..)

theorem mem_scanEach (h : store.scanEach table families ranges = .ok xs) :
    x ∈ xs ↔ x ∈ (bitmapsOf store table).toList ∧ (∃ r ∈ ranges, r.contains x.1 = true) ∧
      (families = [] ∨ x.1.family ∈ families) := by
  induction ranges generalizing xs with
  | nil =>
    obtain rfl := Except.ok.inj h
    simp
  | cons r rs ih =>
    rw [Store.scanEach] at h
    cases hfirst : store.scanRange table families r with
    | error e =>
      rw [hfirst] at h
      cases h
    | ok es =>
      rw [hfirst] at h
      cases hrest : store.scanEach table families rs with
      | error e =>
        rw [hrest] at h
        cases h
      | ok rest =>
        rw [hrest] at h
        obtain rfl := Except.ok.inj h
        rw [List.mem_append, mem_scanRange hfirst, ih hrest, List.exists_mem_cons_iff]
        tauto

theorem mem_scanRanges (h : store.scanRanges table ranges families = .ok xs) :
    x ∈ xs ↔ x ∈ (bitmapsOf store table).toList ∧ (∃ r ∈ ranges, r.contains x.1 = true) ∧
      (families = [] ∨ x.1.family ∈ families) := by
  unfold Store.scanRanges at h
  cases heach : store.scanEach table families ranges with
  | error e =>
    rw [heach] at h
    cases h
  | ok es =>
    rw [heach] at h
    obtain rfl := Except.ok.inj h
    rw [List.mem_mergeSort, mem_scanEach heach]

theorem exists_ok_scanRange (h : HasBitmaps store table) (families : List String)
    (range : Range) : ∃ xs, store.scanRange table families range = .ok xs := by
  obtain ⟨xs, hreturns⟩ : ∃ xs, Scanner.Returns (families.foldl (fun sc f => sc.fetchFamily f)
      ((Scanner.ofTable table (bitmapsOf store table) store.readLimit).setRange range)) xs := by
    rw [Store.foldl_fetchFamily]
    exact ⟨_, (bitmapsOf store table).ascending, h.unlimited range, rfl⟩
  obtain ⟨s', hread⟩ := Scanner.readMany_of_returns_of_lt hreturns
    (Nat.lt_succ_of_le hreturns.length_le)
  exact ⟨xs, by rw [Store.scanRange, h.openScanner]; simp only [Scanner.drain, hread]⟩

theorem exists_ok_scanRanges (h : HasBitmaps store table) (ranges : List Range)
    (families : List String) : ∃ xs, store.scanRanges table ranges families = .ok xs := by
  have heach : ∃ xs, store.scanEach table families ranges = .ok xs := by
    induction ranges with
    | nil => exact ⟨_, rfl⟩
    | cons range ranges ih =>
      obtain ⟨xs, hxs⟩ := exists_ok_scanRange h families range
      obtain ⟨ys, hys⟩ := ih
      exact ⟨xs ++ ys, by rw [Store.scanEach, hxs, hys]; rfl⟩
  obtain ⟨xs, hxs⟩ := heach
  exact ⟨_, by rw [Store.scanRanges, hxs]; rfl⟩

/-! ### Years -/

theorem null_not_mem_toString (year : Int) : '\x00' ∉ (toString year).toList := by
  have hdigits : ∀ n : Nat, '\x00' ∉ (Nat.repr n).toList := fun n h => by
    rw [Nat.repr, String.toList_ofList] at h
    exact absurd (Nat.isDigit_of_mem_toDigits (by decide) (by decide) h) (by decide)
  cases year with
  | ofNat n => exact hdigits n
  | negSucc n =>
    change '\x00' ∉ ("-" ++ Nat.repr (n + 1)).toList
    rw [String.toList_append, List.mem_append, not_or]
    exact ⟨by decide, hdigits _⟩

theorem mem_keys_of_has (h : terms.has value field = true) : value ∈ terms.keys := by
  obtain ⟨fields, hfields, -⟩ := Terms.has_iff.mp h
  exact List.mem_map.mpr ⟨_, SortedMap.get?_eq_some_iff.mp hfields, rfl⟩

theorem mem_foldl_union {f : String} (fss : List (SortedSet String)) (fs : SortedSet String) :
    f ∈ fss.foldl SortedSet.union fs ↔ f ∈ fs ∨ ∃ gs ∈ fss, f ∈ gs := by
  induction fss generalizing fs with
  | nil => simp
  | cons gs fss ih =>
    rw [List.foldl_cons, ih, SortedSet.mem_union, List.exists_mem_cons_iff, or_assoc]

theorem mem_fields_of_has (h : terms.has value field = true) :
    field ∈ terms.values.foldl SortedSet.union .empty := by
  obtain ⟨fields, hfields, hmem⟩ := Terms.has_iff.mp h
  rw [mem_foldl_union]
  exact .inr ⟨fields, List.mem_map.mpr ⟨_, SortedMap.get?_eq_some_iff.mp hfields, rfl⟩, hmem⟩

theorem exists_ok_scanYear (h : HasBitmaps store table) :
    ∃ r, scanYear store table terms year = .ok r := by
  obtain ⟨xs, hxs⟩ := exists_ok_scanRanges h
    (terms.keys.toList.map fun value => Range.row (periodRow (toString year) value))
    (terms.values.foldl SortedSet.union .empty).toList
  exact ⟨_, by rw [scanYear, hxs]; rfl⟩

theorem exists_selects_of_scanYear (h : scanYear store table terms year = .ok r) :
    ∃ xs, Selects (bitmapsOf store table) terms (toString year) xs ∧
      r = PeriodEntry.orNone (addAll terms (.ofKey (toString year)) xs) := by
  unfold scanYear at h
  cases hscan : store.scanRanges table
      (terms.keys.toList.map fun value => Range.row (periodRow (toString year) value))
      (terms.values.foldl SortedSet.union .empty).toList with
  | error e =>
    simp only [hscan] at h
    cases h
  | ok xs =>
    simp only [hscan] at h
    refine ⟨xs, ⟨fun x hx => ?_, fun x hx => ((mem_scanRanges hscan).mp hx).1,
      fun x hx hw => ?_⟩, (Except.ok.inj h).symm⟩
    · obtain ⟨-, ⟨range, hrange, hcontains⟩, -⟩ := (mem_scanRanges hscan).mp hx
      obtain ⟨value, -, rfl⟩ := List.mem_map.mp hrange
      exact ⟨value, Range.contains_row_iff.mp hcontains⟩
    · obtain ⟨value, hrow, hhas⟩ := hw
      exact (mem_scanRanges hscan).mpr
        ⟨hx, ⟨_, List.mem_map.mpr ⟨value, mem_keys_of_has hhas, rfl⟩,
          Range.contains_row_iff.mpr hrow⟩, .inr (mem_fields_of_has hhas)⟩

theorem exists_of_scanYear (h : scanYear store table terms year = .ok r) :
    ∃ e, r = PeriodEntry.orNone e ∧ ∀ {field value}, terms.has value field = true → ∀ i,
      e.hasOffset (Query.equals field value).text i =
        hasTerm (bitmapsOf store table) (toString year) field value i := by
  obtain ⟨xs, hxs, hr⟩ := exists_selects_of_scanYear h
  exact ⟨_, hr, hxs.hasOffset_addAll (null_not_mem_toString year)⟩

/-! ### Days of a year -/

/-- Whether the scan of a year leaves a day of it to be scanned. -/
def keepsDay : Except StoreError (Option PeriodEntry) → Nat → Bool
  | .ok (some e), ordinal => e.terms.values.any (·.contains ordinal)
  | .ok none, _ => false
  | .error _, _ => true

/-- Days in the order of the calendar, all that have a property. -/
structure Lists (ds : List Date) (p : Date → Prop) : Prop where
  ascending : ds.Pairwise (·.number < ·.number)
  mem_iff : ∀ d, d ∈ ds ↔ p d

theorem contains_foldl_union (bs : List Bitmap) (b : Bitmap) (i : Nat) :
    (bs.foldl Bitmap.union b).contains i = (b.contains i || bs.any (·.contains i)) := by
  induction bs generalizing b with
  | nil => simp
  | cons a bs ih => rw [List.foldl_cons, ih, Bitmap.contains_union, List.any_cons, Bool.or_assoc]

variable {first last : Date}

theorem exists_daysOfEntry (year : Int) (e : PeriodEntry) (first last : Date) :
    ∃ ds, daysOfEntry year e first last = ds.map Date.text ∧ Lists ds fun d =>
      d.year = year ∧ first ≤ d ∧ d ≤ last ∧ keepsDay (.ok (some e)) d.ordinal = true := by
  refine ⟨_, rfl, ?_, fun d => ?_⟩
  · refine List.Pairwise.filter _ (List.pairwise_filterMap.mpr ?_)
    refine (Bitmap.toList_ascending _).imp fun {i j} hij d hd d' hd' => ?_
    obtain ⟨hy, rfl⟩ := Date.ofOrdinal?_eq_some_iff.mp hd
    obtain ⟨hy', rfl⟩ := Date.ofOrdinal?_eq_some_iff.mp hd'
    rw [Date.number, Date.number, hy, hy']
    omega
  · simp only [List.mem_filter, List.mem_filterMap, Bitmap.mem_toList, contains_foldl_union,
      Bitmap.contains_empty, Bool.false_or, Date.ofOrdinal?_eq_some_iff, keepsDay,
      decide_eq_true_eq]
    constructor
    · rintro ⟨⟨i, hi, hy, rfl⟩, hd⟩
      exact ⟨hy, hd.1, hd.2, hi⟩
    · rintro ⟨hy, hfirst, hlast, hi⟩
      exact ⟨⟨_, hi, hy, rfl⟩, hfirst, hlast⟩

/-- A year whose scan fails counts with all of its days. -/
theorem exists_daysOfYear (hy : first.year ≤ year ∧ year ≤ last.year)
    (hlast : last.year < Calendar.lastYear) :
    ∃ ds, daysOfYear year first last = ds.map Date.text ∧ Lists ds fun d =>
      d.year = year ∧ first ≤ d ∧ d ≤ last := by
  have hf := first.year_mem
  have hyear : Calendar.firstYear ≤ year ∧ year ≤ Calendar.lastYear := by omega
  obtain ⟨start, hstart, hstarty, hstarto⟩ := Date.exists_firstDay hyear
  obtain ⟨stop, hstop, hstopy, hstopo⟩ := Date.exists_lastDay hyear
  refine ⟨_, rfl, Date.pairwise_upTo _ _, fun d => ?_⟩
  have hd := d.ordinal_mem
  have hin : start ≤ d ∧ d ≤ stop ↔ d.year = year := by
    rw [Date.le_def, Date.le_def, hstarty, hstarto, hstopy, hstopo]
    constructor
    · omega
    · rintro rfl
      omega
  rw [hstart, hstop, ← hin]
  constructor
  · intro hmem
    obtain ⟨hb, he⟩ := Date.le_of_mem_upTo hmem
    rw [Date.getD_filter_not_le] at hb
    rw [Date.le_getD_filter_not_le] at he
    exact ⟨⟨hb.1, he.1⟩, hb.2, he.2⟩
  · rintro ⟨⟨hb, he⟩, hfirst, hlast'⟩
    have hyd := Date.year_le_of_le hlast'
    rw [Date.mem_upTo_iff (Date.next?_ne_none_of_year_lt (by omega)), Date.getD_filter_not_le,
      Date.le_getD_filter_not_le]
    exact ⟨⟨hb, hfirst⟩, he, hlast'⟩

end ShardedSearch.DayIndex
