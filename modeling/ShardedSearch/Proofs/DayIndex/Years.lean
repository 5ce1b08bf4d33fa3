import ShardedSearch.Proofs.DayIndex.Plans
import ShardedSearch.Proofs.DayIndex.YearScan

/-! # Runs with the year index

The year index leaves out days on which no wanted term has an offset. Such days have no plans, so
a run hands out the same plans with the year index as without it.
-/

namespace ShardedSearch

open Calendar (Date)
open Index (PeriodEntry)
open Store (StoreError Table)

namespace DayIndex

variable {store : Store} {c : PlanConfig} {q : Query} {table : String} {terms : Terms}
variable {year : Int} {d : Date}

/-! ### Days of all years -/

theorem mem_years_iff : year ∈ years c ↔ c.first.year ≤ year ∧ year ≤ c.last.year := by
  rw [years, List.mem_map]
  constructor
  · rintro ⟨n, hn, rfl⟩
    rw [List.mem_range, PlanConfig.yearCount] at hn
    omega
  · intro h
    refine ⟨(year - c.first.year).toNat, ?_, by omega⟩
    rw [List.mem_range, PlanConfig.yearCount]
    omega

theorem pairwise_years (c : PlanConfig) : (years c).Pairwise (· < ·) := by
  refine List.pairwise_map.mpr (List.pairwise_lt_range.imp ?_)
  intro n m hnm
  omega

theorem Lists.append {ds es : List Date} {p p' : Date → Prop} (h : Lists ds p) (h' : Lists es p')
    (hlt : ∀ d e, p d → p' e → d.number < e.number) : Lists (ds ++ es) fun d => p d ∨ p' d where
  ascending := List.pairwise_append.mpr ⟨h.ascending, h'.ascending, fun d hd e he =>
    hlt d e ((h.mem_iff d).mp hd) ((h'.mem_iff e).mp he)⟩
  mem_iff d := by rw [List.mem_append, h.mem_iff, h'.mem_iff]

theorem Lists.congr {ds : List Date} {p p' : Date → Prop} (h : Lists ds p)
    (hp : ∀ d, p d ↔ p' d) : Lists ds p' :=
  ⟨h.ascending, fun d => (h.mem_iff d).trans (hp d)⟩

section Years

variable (hlast : c.last.year < Calendar.lastYear)
include hlast

theorem exists_daysOf (hy : c.first.year ≤ year ∧ year ≤ c.last.year) (stats : Statistics)
    (r : Except StoreError (Option PeriodEntry)) :
    ∃ ds, (daysOf c year stats r).1 = ds.map Date.text ∧ Lists ds fun d =>
      d.year = year ∧ c.first ≤ d ∧ d ≤ c.last ∧ keepsDay r d.ordinal = true := by
  match r with
  | .ok (some e) => exact exists_daysOfEntry year e c.first c.last
  | .ok none => exact ⟨[], rfl, .nil, fun d => by simp [keepsDay]⟩
  | .error err =>
    obtain ⟨ds, hds, hlists⟩ := exists_daysOfYear hy hlast
    exact ⟨ds, hds, hlists.congr fun d => by simp [keepsDay]⟩

/-- The induction is on the years, whose days come one year after the other. -/
theorem exists_daysByYear {ys : List Int} (hasc : ys.Pairwise (· < ·))
    (hy : ∀ year ∈ ys, c.first.year ≤ year ∧ year ≤ c.last.year) (stats : Statistics) :
    ∃ ds, (daysByYear store c table terms ys stats).1 = ds.map Date.text ∧ Lists ds fun d =>
      d.year ∈ ys ∧ c.first ≤ d ∧ d ≤ c.last ∧
        keepsDay (scanYear store table terms d.year) d.ordinal = true := by
  induction ys generalizing stats with
  | nil => exact ⟨[], rfl, .nil, fun d => by simp⟩
  | cons year ys ih =>
    obtain ⟨hfirst, hrest⟩ := List.pairwise_cons.mp hasc
    obtain ⟨ds, hds, hlist⟩ := exists_daysOf hlast (hy year List.mem_cons_self) stats
      (scanYear store table terms year)
    obtain ⟨es, hes, hlists⟩ := ih hrest (fun y hys => hy y (List.mem_cons_of_mem year hys))
      (daysOf c year stats (scanYear store table terms year)).2
    refine ⟨ds ++ es, ?_, (hlist.append hlists fun d e hd he => ?_).congr fun d => ?_⟩
    · rw [daysByYear, List.map_append, ← hds, ← hes]
    · exact Date.number_lt_of_year_lt (hd.1 ▸ hfirst _ he.1)
    · rw [List.mem_cons, or_and_right, or_congr_left]
      constructor
      · rintro ⟨rfl, h⟩
        exact ⟨rfl, h⟩
      · rintro ⟨rfl, h⟩
        exact ⟨rfl, h⟩

end Years

def isScanned (store : Store) (c : PlanConfig) (terms : Terms) (d : Date) : Bool :=
  match yearTable? c with
  | some table => keepsDay (scanYear store table terms d.year) d.ordinal
  | none => true

theorem daysToScan_eq (hlast : c.last.year < Calendar.lastYear) :
    (daysToScan store c terms).1 =
      ((c.first.upTo c.last).filter (isScanned store c terms)).map Date.text := by
  unfold daysToScan
  cases htable : yearTable? c with
  | some table =>
    obtain ⟨ds, hds, hlists⟩ := @exists_daysByYear store c table terms hlast _
      (pairwise_years c) (fun _ h => mem_years_iff.mp h) {}
    have hkeep : isScanned store c terms =
        fun d => keepsDay (scanYear store table terms d.year) d.ordinal := by
      funext d
      rw [isScanned, htable]
    rw [hkeep]
    refine hds.trans (congrArg (List.map Date.text) ?_)
    refine eq_of_mem_iff_of_ascending hlists.ascending ((Date.pairwise_upTo _ _).filter _) ?_
    intro d
    rw [hlists.mem_iff, List.mem_filter, mem_years_iff, ← and_assoc, ← and_assoc]
    refine and_congr_left fun _ => ?_
    constructor
    · rintro ⟨⟨hy, hfirst⟩, hlast'⟩
      exact (Date.mem_upTo_iff (Date.next?_ne_none_of_year_lt (by omega))).mpr ⟨hfirst, hlast'⟩
    · intro hmem
      obtain ⟨hfirst, hlast'⟩ := Date.le_of_mem_upTo hmem
      exact ⟨⟨⟨Date.year_le_of_le hfirst, Date.year_le_of_le hlast'⟩, hfirst⟩, hlast'⟩
  | none =>
    have hall : isScanned store c terms = fun _ => true := by
      funext d
      rw [isScanned, htable]
    rw [hall, List.filter_true]
    rfl

/-! ### Days that are left out -/

/-- Whether a year index knows all days on which a term of a day index has an offset. It may
know others. -/
def IsCompleteFor (years days : Table) : Prop :=
  ∀ (d : Date) (field value : String) (i : Nat), hasTerm days d.text field value i = true →
    hasTerm years (toString d.year) field value d.ordinal = true

theorem keepsDay_of_hasOffset {e : PeriodEntry} {term : String} {i : Nat}
    (h : e.hasOffset term i = true) : keepsDay (.ok (PeriodEntry.orNone e)) i = true := by
  have hne : ¬ e.isEmpty = true := fun hempty => by
    rw [PeriodEntry.isEmpty_iff.mp hempty] at h
    cases h
  obtain ⟨b, hb, hi⟩ := PeriodEntry.hasOffset_iff.mp h
  rw [PeriodEntry.orNone, if_neg hne, keepsDay, List.any_eq_true]
  exact ⟨b, PeriodEntry.mem_values_of_get? hb, hi⟩

/-- The year index keeps every day that has a wanted term. -/
theorem isScanned_of_hasTerm {field value : String} {i : Nat}
    (hyears : ∀ years, yearTable? c = some years →
      IsCompleteFor (bitmapsOf store years) (bitmapsOf store table))
    (hhas : terms.has value field = true)
    (h : hasTerm (bitmapsOf store table) d.text field value i = true) :
    isScanned store c terms d = true := by
  unfold isScanned
  split
  · next years htable =>
    cases hscan : scanYear store years terms d.year with
    | error err => rfl
    | ok r =>
      obtain ⟨e, rfl, he⟩ := exists_of_scanYear hscan
      have hoffset : e.hasOffset (Query.equals field value).text d.ordinal = true := by
        rw [he hhas]
        exact hyears years htable d field value i h
      exact keepsDay_of_hasOffset hoffset
  · rfl

theorem isEmpty_of_scanned {t : Table} {day : String} {e : PeriodEntry}
    (h : Scanned t terms day e) (hnone : ∀ field value i, terms.has value field = true →
      hasTerm t day field value i = false) : e.isEmpty = true := by
  have hisOf : IsOf terms day (((t.toList.map (·.2.length)).max?).getD 0) e :=
    h.isOf fun x hx => List.le_max?_getD_of_mem (List.mem_map.mpr ⟨x, hx, rfl⟩)
  rw [PeriodEntry.isEmpty_iff]
  intro term i
  rw [← Bool.not_eq_true]
  intro hi
  obtain ⟨b, hb, -⟩ := PeriodEntry.hasOffset_iff.mp hi
  obtain ⟨⟨field, value⟩, hpair, rfl⟩ :=
    List.mem_map.mp (SortedSet.mem_ofList.mp (hisOf.wanted hb))
  have hhas := Terms.mem_pairs_iff.mp hpair
  rw [h.hasOffset_eq hhas, hnone field value i hhas] at hi
  cases hi

theorem plansOfOutcome_of_not_isScanned
    (hyears : ∀ years, yearTable? c = some years →
      IsCompleteFor (bitmapsOf store years) (bitmapsOf store table))
    (hscan : ∃ r, (scanDay store table (q.indexedTerms c.indexed) d.text).entry = .ok r)
    (h : isScanned store c (q.indexedTerms c.indexed) d = false) :
    plansOfOutcome c q (q.indexedTerms c.indexed).wanted
      (outcome store table (q.indexedTerms c.indexed) d.text) = .ok [] := by
  obtain ⟨r, hr⟩ := hscan
  obtain ⟨e, rfl, hscanned⟩ := scanned_scanDay (Query.isProper_indexedTerms q)
    (Index.Layout.null_not_mem_text d) hr
  have hempty : e.isEmpty = true := isEmpty_of_scanned hscanned fun field value i hhas => by
    rw [← Bool.not_eq_true]
    intro hterm
    rw [isScanned_of_hasTerm hyears hhas hterm] at h
    cases h
  rw [PeriodEntry.orNone, if_pos hempty] at hr
  rw [plansOfOutcome, outcome, hr]
  rfl

end DayIndex

def PlanConfig.withoutYearIndex (c : PlanConfig) : PlanConfig :=
  { c with settings := { c.settings with tables := { c.settings.tables with yearIndex := none } } }

namespace DayRun

open DayIndex

variable {store : Store} {c : PlanConfig} {q : Query} {table : String}

theorem plansOfAll_filter {α : Type} {plansOf : Outcome → Except PlanError (List ShardPlan)}
    {f : α → Outcome} {p : α → Bool} {as : List α}
    (h : ∀ a ∈ as, p a = false → plansOf (f a) = .ok []) :
    plansOfAll plansOf ((as.filter p).map f) = plansOfAll plansOf (as.map f) := by
  induction as with
  | nil => rfl
  | cons a as ih =>
    have ih := ih fun b hb => h b (List.mem_cons_of_mem a hb)
    rw [List.filter_cons]
    split
    · rw [List.map_cons, List.map_cons, plansOfAll, plansOfAll, ih]
    · next hp =>
      rw [List.map_cons, plansOfAll, h a List.mem_cons_self (Bool.not_eq_true _ ▸ hp), ih]
      rfl

def scannedOutcomes (store : Store) (c : PlanConfig) (q : Query) (table : String) :
    List Outcome :=
  (daysToScan store c (q.indexedTerms c.indexed)).1.map
    (outcome store table (q.indexedTerms c.indexed))

theorem start_of_allIndexed (htable : c.settings.tables.dayIndex = some table)
    (hq : q.allIndexed c.indexed = true) : start store c q = .ok ⟨[], [],
      .ofArrivals ((List.range (scannedOutcomes store c q table).length).zip
        (scannedOutcomes store c q table)),
      plansOfOutcome c q (q.indexedTerms c.indexed).wanted,
      (scannedOutcomes store c q table).foldl count
        (daysToScan store c (q.indexedTerms c.indexed)).2, false⟩ := by
  rw [start, htable]
  simp only [Query.isEmpty_indexedTerms hq, Bool.false_eq_true, if_false]
  rfl

theorem withArrivals_arrivals {run : DayRun} (htable : c.settings.tables.dayIndex = some table)
    (hq : q.allIndexed c.indexed = true) (hrun : start store c q = .ok run) :
    run.withArrivals run.outcomes.arrivals = run := by
  obtain rfl := Except.ok.inj ((start_of_allIndexed htable hq).symm.trans hrun)
  rfl

section Days

variable (htable : c.settings.tables.dayIndex = some table)
variable (hlast : c.last.year < Calendar.lastYear) (hq : q.allIndexed c.indexed = true)
variable (hscans : ∀ day ∈ c.days,
  ∃ r, (scanDay store table (q.indexedTerms c.indexed) day).entry = .ok r)
variable (hyears : ∀ years, yearTable? c = some years →
  IsCompleteFor (bitmapsOf store years) (bitmapsOf store table))
include htable hlast hq hscans hyears

/-- With a year index or without one, a run hands out the plans of all days. -/
theorem drain_of_complete {run : DayRun} {arrivals : List (Nat × Outcome)}
    (hrun : start store c q = .ok run) (harrivals : arrivals.Perm run.outcomes.arrivals) :
    (PlanStream.pruned (run.withArrivals arrivals)).drain.1 =
      plansOfAll (plansOfOutcome c q (q.indexedTerms c.indexed).wanted)
        (c.days.map (outcome store table (q.indexedTerms c.indexed))) := by
  obtain rfl := Except.ok.inj ((start_of_allIndexed htable hq).symm.trans hrun)
  rw [drain_of_gives (.running rfl (holds_zip_range _ harrivals)), plansOver,
    List.map_snd_zip (by simp), scannedOutcomes, daysToScan_eq hlast, List.map_map,
    PlanConfig.days, List.map_map]
  refine plansOfAll_filter fun d hd hnot => ?_
  exact plansOfOutcome_of_not_isScanned hyears (hscans _ (List.mem_map.mpr ⟨d, hd, rfl⟩)) hnot

/-- The year index cannot be told from the plans of a run: whichever years it fails on and in
whatever order the scans end, the plans are those of a run without it. -/
theorem drain_withoutYearIndex :
    ∃ run plain, start store c q = .ok run ∧ start store c.withoutYearIndex q = .ok plain ∧
      (PlanStream.pruned run).drain.1 = (PlanStream.pruned plain).drain.1 ∧
      ∀ arrivals others, arrivals.Perm run.outcomes.arrivals →
        others.Perm plain.outcomes.arrivals →
          (PlanStream.pruned (run.withArrivals arrivals)).drain.1 =
            (PlanStream.pruned (plain.withArrivals others)).drain.1 := by
  obtain ⟨run, hrun⟩ : ∃ run, start store c q = .ok run := ⟨_, start_of_allIndexed htable hq⟩
  obtain ⟨plain, hplain⟩ : ∃ plain, start store c.withoutYearIndex q = .ok plain :=
    ⟨_, start_of_allIndexed (c := c.withoutYearIndex) htable hq⟩
  have hsame : ∀ arrivals others, arrivals.Perm run.outcomes.arrivals →
      others.Perm plain.outcomes.arrivals →
        (PlanStream.pruned (run.withArrivals arrivals)).drain.1 =
          (PlanStream.pruned (plain.withArrivals others)).drain.1 := by
    intro arrivals others harrivals hothers
    rw [drain_of_complete htable hlast hq hscans hyears hrun harrivals,
      drain_of_complete (c := c.withoutYearIndex) htable hlast hq hscans (fun _ h => by cases h)
        hplain hothers]
    rfl
  have hself := hsame run.outcomes.arrivals plain.outcomes.arrivals (.refl _) (.refl _)
  rw [withArrivals_arrivals htable hq hrun,
    withArrivals_arrivals (c := c.withoutYearIndex) htable hq hplain] at hself
  exact ⟨run, plain, hrun, hplain, hself, hsame⟩

end Days

/-! ### A small year index -/

def smallBitmaps : Table :=
  .ofList [(⟨Index.Layout.periodRow "20240102" "1", "A", "log"⟩, [1])]

def smallYears : Table := .ofList [(⟨Index.Layout.periodRow "2024" "1", "A", "log"⟩, [5])]

def smallYearStore : Store :=
  ⟨.ofList [("shardDayIndex", smallBitmaps), ("shardYearIndex", smallYears)], .empty,
    fun table range =>
      if table = "shardYearIndex" ∧ range = some (.row (Index.Layout.periodRow "2023" "1")) then
        some 0
      else none⟩

theorem year_before_mem : Calendar.firstYear ≤ 2023 ∧ 2023 ≤ Calendar.lastYear := by decide

def newYear : PlanConfig :=
  ⟨{ pruning := { yearThreshold := 2 } }, .empty, ⟨2023, 365, year_before_mem, by decide⟩,
    twoDays.last, by decide, .ofList ["A"], .empty, .empty, .empty⟩

theorem isCompleteFor_smallYears : IsCompleteFor smallYears smallBitmaps := by
  intro d field value i h
  obtain ⟨x, hx, hrow, hfield, hbit⟩ := hasTerm_iff.mp h
  obtain rfl := List.mem_singleton.mp hx
  have hparts := congrArg Index.Layout.ofPeriodRow? hrow
  rw [Index.Layout.ofPeriodRow?_periodRow (by decide),
    Index.Layout.ofPeriodRow?_periodRow (Index.Layout.null_not_mem_text d)] at hparts
  obtain ⟨hday, rfl⟩ := Prod.mk.inj (Option.some.inj hparts)
  obtain rfl : d = Date.small := Index.Layout.eq_of_text_eq ⟨by decide, by decide⟩ hday.symm
  obtain rfl : "A" = field := hfield
  decide +kernel

theorem drain_withoutYearIndex_newYear :
    yearTable? newYear = some "shardYearIndex" ∧
    (∀ years, yearTable? newYear = some years → IsCompleteFor (bitmapsOf smallYearStore years)
      (bitmapsOf smallYearStore "shardDayIndex")) ∧
    ∃ run plain, start smallYearStore newYear (.equals "A" "1") = .ok run ∧
      start smallYearStore newYear.withoutYearIndex (.equals "A" "1") = .ok plain ∧
      (PlanStream.pruned run).drain.1 = (PlanStream.pruned plain).drain.1 ∧
      ∀ arrivals others, arrivals.Perm run.outcomes.arrivals →
        others.Perm plain.outcomes.arrivals →
          (PlanStream.pruned (run.withArrivals arrivals)).drain.1 =
            (PlanStream.pruned (plain.withArrivals others)).drain.1 := by
  have htable : yearTable? newYear = some "shardYearIndex" := by decide
  have hyears : ∀ years, yearTable? newYear = some years →
      IsCompleteFor (bitmapsOf smallYearStore years)
        (bitmapsOf smallYearStore "shardDayIndex") := by
    intro years h
    obtain rfl := Option.some.inj (htable.symm.trans h)
    exact isCompleteFor_smallYears
  have hscans : ∀ day ∈ newYear.days, ∃ r, (scanDay smallYearStore "shardDayIndex"
      ((Query.equals "A" "1").indexedTerms newYear.indexed) day).entry = .ok r :=
    fun _ _ => exists_ok_scanDay ⟨by decide, by decide, fun _ => rfl⟩
  exact ⟨htable, hyears, drain_withoutYearIndex rfl (by decide) (by decide) hscans hyears⟩

end DayRun

end ShardedSearch
