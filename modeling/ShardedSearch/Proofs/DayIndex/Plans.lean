import ShardedSearch.Proofs.DayIndex.Prune
import ShardedSearch.Proofs.DayIndex.Run
import ShardedSearch.Proofs.DayIndex.Scan
import ShardedSearch.Proofs.Index.Days

/-! # Plans of days

A day has a plan for every offset at which its bitmaps make the query true, or one for the whole
day if its scan has failed. A run over the day index hands out the plans of its days in order,
whatever the order in which the scans end.
-/

namespace ShardedSearch

open Index (PeriodEntry)
open Store (StoreError Table)

namespace DayIndex

variable {store : Store} {c : PlanConfig} {q : Query} {table day : String} {t : Table}

/-- The truth of terms at an offset of a day, by the bitmaps of a table. -/
def truthAt (t : Table) (day : String) (offset : Nat) : Query → Bool
  | .equality field (some value) => hasTerm t day field value offset
  | _ => false

/-- The plans of a day by what its scan has found. -/
def IsPlannedBy (c : PlanConfig) (q : Query) (t : Table) (day : String) (plans : List ShardPlan) :
    Except StoreError (Option PeriodEntry) → Prop
  | .error _ => plans = (ShardPlan.ofShard? c day q).toList
  | .ok _ => ∃ offsets : List Nat, offsets.Pairwise (· < ·) ∧
      (∀ o, o ∈ offsets ↔ q.holds (truthAt t day o) = true) ∧
      plans = offsets.filterMap fun o =>
        ShardPlan.ofShard? c (Shard.ofDay day o) (q.trueBranches (truthAt t day o))

theorem plansOf_orNone (c : PlanConfig) (q : Query) (wanted : SortedSet String)
    (e : PeriodEntry) :
    (PeriodEntry.orNone e).elim [] (plansOf c q wanted) = plansOf c q wanted e := by
  rw [PeriodEntry.orNone]
  split
  · next h => rw [plansOf, if_pos h, Option.elim_none]
  · rfl

theorem plansOfOutcome_ok {r : Option PeriodEntry} {wanted : SortedSet String}
    (h : (scanDay store table (q.indexedTerms c.indexed) day).entry = .ok r)
    (hform : ∀ e, r = some e → e.HasForm) :
    plansOfOutcome c q wanted (outcome store table (q.indexedTerms c.indexed) day) =
      .ok (r.elim [] (plansOf c q wanted)) := by
  rw [plansOfOutcome, outcome, h]
  cases r with
  | none => rfl
  | some e =>
    simp only [Except.map, Option.map_some, PeriodEntry.ofBytes_encode (hform e rfl)]
    rfl

theorem shows_of_scanned {e : PeriodEntry}
    (h : Scanned t (q.indexedTerms c.indexed) day e) (hq : q.allIndexed c.indexed = true) :
    q.OverTerms (Shows e (q.indexedTerms c.indexed).wanted (truthAt t day)) :=
  (Query.overTerms_indexedTerms hq).mono fun _ _ hhas =>
    ⟨Terms.text_mem_wanted hhas, h.hasOffset_eq hhas⟩

theorem exists_plansOfOutcome (hq : q.allIndexed c.indexed = true)
    (hfits : FitsMemory (q.indexedTerms c.indexed) (bitmapsOf store table))
    (hday : day ∈ c.days) :
    ∃ plans, plansOfOutcome c q (q.indexedTerms c.indexed).wanted
        (outcome store table (q.indexedTerms c.indexed) day) = .ok plans ∧
      IsPlannedBy c q (bitmapsOf store table) day plans
        (scanDay store table (q.indexedTerms c.indexed) day).entry := by
  obtain ⟨d, -, rfl⟩ := List.mem_map.mp hday
  cases hscan : (scanDay store table (q.indexedTerms c.indexed) d.text).entry with
  | error err =>
    refine ⟨_, ?_, rfl⟩
    rw [plansOfOutcome, outcome, hscan]
    rfl
  | ok r =>
    obtain ⟨e, rfl, hscanned⟩ := scanned_scanDay (Query.isProper_indexedTerms q)
      (Index.Layout.null_not_mem_text d) hscan
    have hisOf : IsOf (q.indexedTerms c.indexed) d.text (2 ^ 64 - 1) e :=
      hscanned.isOf fun x hx => Nat.le_pred_of_lt (hfits.values x hx)
    have hform : ∀ e', PeriodEntry.orNone e = some e' → e'.HasForm := by
      intro e' he'
      rw [PeriodEntry.orNone] at he'
      split at he'
      · cases he'
      · obtain rfl := Option.some.inj he'
        exact hisOf.hasForm (by decide) d.utf8ByteSize_text_lt hfits
    obtain ⟨offsets, hasc, hmem, hplans⟩ := exists_plansOf c (shows_of_scanned hscanned hq)
    refine ⟨_, plansOfOutcome_ok hscan hform, offsets, hasc, hmem, ?_⟩
    rw [plansOf_orNone, hplans, hisOf.key_eq]

def plansOfDay (store : Store) (c : PlanConfig) (q : Query) (table day : String) :
    List ShardPlan :=
  (plansOfOutcome c q (q.indexedTerms c.indexed).wanted
    (outcome store table (q.indexedTerms c.indexed) day)).toOption.getD []

section Days

variable (hq : q.allIndexed c.indexed = true)
variable (hfits : FitsMemory (q.indexedTerms c.indexed) (bitmapsOf store table))
variable (hday : day ∈ c.days)
include hq hfits hday

theorem plansOfOutcome_eq : plansOfOutcome c q (q.indexedTerms c.indexed).wanted
    (outcome store table (q.indexedTerms c.indexed) day) =
      .ok (plansOfDay store c q table day) := by
  obtain ⟨plans, hplans, -⟩ := exists_plansOfOutcome hq hfits hday
  rw [plansOfDay, hplans]
  rfl

theorem isPlannedBy_plansOfDay :
    IsPlannedBy c q (bitmapsOf store table) day (plansOfDay store c q table day)
      (scanDay store table (q.indexedTerms c.indexed) day).entry := by
  obtain ⟨plans, hplans, hspec⟩ := exists_plansOfOutcome hq hfits hday
  rw [plansOfDay, hplans]
  exact hspec

end Days

end DayIndex

namespace DayRun

open DayIndex

variable {store : Store} {c : PlanConfig} {q : Query} {table : String}

def withArrivals (r : DayRun) (arrivals : List (Nat × Outcome)) : DayRun :=
  { r with outcomes := .ofArrivals arrivals }

theorem holds_zip_range {α : Type} (xs : List α) {arrivals : List (Nat × α)}
    (h : arrivals.Perm ((List.range xs.length).zip xs)) :
    (Sequencer.ofArrivals arrivals).Holds ((List.range xs.length).zip xs) := by
  refine Sequencer.holds_ofArrivals ?_ h
  rw [← List.pairwise_map, List.map_fst_zip (by simp)]
  exact List.pairwise_lt_range

def outcomesOf (store : Store) (c : PlanConfig) (q : Query) (table : String) : List Outcome :=
  c.days.map (outcome store table (q.indexedTerms c.indexed))

/-- Without the year index, a run over the terms of a query has an outcome for each day. -/
theorem start_eq (htable : c.settings.tables.dayIndex = some table)
    (hyear : yearTable? c = none) (hq : q.allIndexed c.indexed = true) :
    start store c q = .ok ⟨[], [],
      .ofArrivals ((List.range (outcomesOf store c q table).length).zip
        (outcomesOf store c q table)),
      plansOfOutcome c q (q.indexedTerms c.indexed).wanted,
      (outcomesOf store c q table).foldl count {}, false⟩ := by
  rw [start, htable]
  simp only [Query.isEmpty_indexedTerms hq, Bool.false_eq_true, if_false, daysToScan, hyear]
  rfl

theorem withArrivals_self {run : DayRun} (htable : c.settings.tables.dayIndex = some table)
    (hyear : yearTable? c = none) (hq : q.allIndexed c.indexed = true)
    (hrun : start store c q = .ok run) : run.withArrivals run.outcomes.arrivals = run := by
  obtain rfl := Except.ok.inj ((start_eq htable hyear hq).symm.trans hrun)
  rfl

theorem drain_withArrivals {run : DayRun} {arrivals : List (Nat × Outcome)}
    (htable : c.settings.tables.dayIndex = some table) (hyear : yearTable? c = none)
    (hq : q.allIndexed c.indexed = true)
    (hfits : FitsMemory (q.indexedTerms c.indexed) (bitmapsOf store table))
    (hrun : start store c q = .ok run) (harrivals : arrivals.Perm run.outcomes.arrivals) :
    (PlanStream.pruned (run.withArrivals arrivals)).drain.1 =
      (c.days.flatMap (plansOfDay store c q table)).map .ok := by
  obtain rfl := Except.ok.inj ((start_eq htable hyear hq).symm.trans hrun)
  rw [drain_of_gives (.running rfl (holds_zip_range _ harrivals)), plansOver,
    List.map_snd_zip (by simp)]
  exact plansOfAll_map fun day hday => plansOfOutcome_eq hq hfits hday

theorem drain_of_start {run : DayRun} (htable : c.settings.tables.dayIndex = some table)
    (hyear : yearTable? c = none) (hq : q.allIndexed c.indexed = true)
    (hfits : FitsMemory (q.indexedTerms c.indexed) (bitmapsOf store table))
    (hrun : start store c q = .ok run) :
    (PlanStream.pruned run).drain.1 = (c.days.flatMap (plansOfDay store c q table)).map .ok := by
  have hself := drain_withArrivals htable hyear hq hfits hrun (.refl _)
  rwa [withArrivals_self htable hyear hq hrun] at hself

/-- The plans of a query that the day index answers: those of its days, in order, whatever the
order in which the scans end. -/
theorem drain_of_allIndexed (htable : c.settings.tables.dayIndex = some table)
    (hyear : yearTable? c = none) (hq : q.allIndexed c.indexed = true)
    (hfits : FitsMemory (q.indexedTerms c.indexed) (bitmapsOf store table)) :
    ∃ run, start store c q = .ok run ∧ ∃ plans : String → List ShardPlan,
      (PlanStream.pruned run).drain.1 = (c.days.flatMap plans).map .ok ∧
      (∀ arrivals, arrivals.Perm run.outcomes.arrivals →
        (PlanStream.pruned (run.withArrivals arrivals)).drain.1 =
          (c.days.flatMap plans).map .ok) ∧
      ∀ day ∈ c.days, IsPlannedBy c q (bitmapsOf store table) day (plans day)
        (scanDay store table (q.indexedTerms c.indexed) day).entry := by
  obtain ⟨run, hrun⟩ : ∃ run, start store c q = .ok run := ⟨_, start_eq htable hyear hq⟩
  exact ⟨run, hrun, plansOfDay store c q table, drain_of_start htable hyear hq hfits hrun,
    fun _ => drain_withArrivals htable hyear hq hfits hrun,
    fun _ hday => isPlannedBy_plansOfDay hq hfits hday⟩

/-! ### A small day index -/

def twoShardBitmaps : Table :=
  .ofList [(⟨Index.Layout.periodRow "20240102" "1", "A", "log"⟩, [3]),
    (⟨Index.Layout.periodRow "20240102" "2", "B", "log"⟩, [2])]

def twoShardStore : Store := ⟨.ofList [("shardDayIndex", twoShardBitmaps)], .empty, fun _ _ => none⟩

def twoDays : PlanConfig :=
  ⟨{}, .empty, .small, ⟨2024, 3, Calendar.Date.small.year_mem, by decide⟩, by decide,
    .ofList ["A", "B"], .empty, .empty, .empty⟩

theorem fitsMemory_twoShardBitmaps :
    FitsMemory (Query.nested.indexedTerms twoDays.indexed)
      (bitmapsOf twoShardStore "shardDayIndex") where
  texts := by
    change ∀ term ∈ (Query.nested.indexedTerms twoDays.indexed).wanted.toList, _
    decide
  size := by decide
  values := by
    change ∀ x ∈ twoShardBitmaps.toList, _
    decide

theorem drain_of_twoShardBitmaps :
    ∃ run, start twoShardStore twoDays Query.nested = .ok run ∧
      ∃ plans : String → List ShardPlan,
      (PlanStream.pruned run).drain.1 = (twoDays.days.flatMap plans).map .ok ∧
      (∀ arrivals, arrivals.Perm run.outcomes.arrivals →
        (PlanStream.pruned (run.withArrivals arrivals)).drain.1 =
          (twoDays.days.flatMap plans).map .ok) ∧
      ∀ day ∈ twoDays.days, IsPlannedBy twoDays Query.nested
        (bitmapsOf twoShardStore "shardDayIndex") day (plans day)
        (scanDay twoShardStore "shardDayIndex" (Query.nested.indexedTerms twoDays.indexed) day).entry :=
  drain_of_allIndexed rfl (by decide) (by decide) fitsMemory_twoShardBitmaps

end DayRun

end ShardedSearch
