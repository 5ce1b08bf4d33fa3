import ShardedSearch.Proofs.DayIndex.Plans
import ShardedSearch.Proofs.Plan.Finding
import ShardedSearch.Proofs.Plan.Soundness

/-! # Documents of the day index

If the day index records documents, a run over it finds just what its query asks for: no shard
with a document that satisfies the query is pruned, and no branch that is pruned is true for a
document of its shard.
-/

namespace ShardedSearch

open Calendar (Date)
open Store (Table)

theorem Document.next?_ne_none (d : Document) : d.day.next? ≠ none := by
  intro hnone
  have hy := (Date.next?_eq_none_iff.mp hnone).1
  have := d.year_mem
  unfold Calendar.lastYear at hy
  omega

namespace DayIndex

/-- Whether a day index has the bits of all indexed pairs of documents; others do no harm. -/
def RecordsBits (c : PlanConfig) (docs : List Document) (t : Table) : Prop :=
  ∀ d ∈ docs, ∀ p ∈ d.pairs, c.isIndexed p.1 = true →
    hasTerm t d.day.text p.1 p.2 d.number = true

variable {c : PlanConfig} {docs : List Document} {t : Table} {q : Query} {d : Document}

theorem holds_truthAt (h : RecordsBits c docs t) (hd : d ∈ docs)
    (hq : q.OverTerms fun field _ => Lookup.LooksUp c field)
    (hsat : d.Satisfies Document.shows q) : q.holds (truthAt t d.day.text d.number) = true := by
  refine Query.holds_mono (fun field value hfield hshows => ?_) q hq hsat
  exact h d hd _ (of_decide_eq_true hshows) (Lookup.isIndexed_of_looksUp hfield)

/-- In the shard of a document, pruned branches do not matter for it. -/
theorem satisfies_trueBranches (h : RecordsBits c docs t) (hd : d ∈ docs)
    (hq : q.OverTerms fun field _ => Lookup.LooksUp c field)
    (htrue : q.holds (truthAt t d.day.text d.number) = true) :
    d.Satisfies Document.shows (q.trueBranches (truthAt t d.day.text d.number)) ↔
      d.Satisfies Document.shows q := by
  rw [Document.Satisfies, Query.holds_trueBranches (fun field value hfield hshows => ?_) q hq htrue,
    Document.Satisfies]
  exact h d hd _ (of_decide_eq_true hshows) (Lookup.isIndexed_of_looksUp hfield)

end DayIndex

namespace DayRun

open DayIndex

variable {store : Store} {c : PlanConfig} {q : Query} {table : String} {run : DayRun}
variable {docs : List Document} {p : ShardPlan}

section Plans

variable (htable : c.settings.tables.dayIndex = some table) (hyear : yearTable? c = none)
variable (hq : q.allIndexed c.indexed = true)
variable (hfits : FitsMemory (q.indexedTerms c.indexed) (bitmapsOf store table))
variable (hbits : HasBitmaps store table) (hrun : start store c q = .ok run)
include htable hyear hq hfits hbits hrun

/-- The plans of a run without failures: one for each shard at whose offset the query is true. -/
theorem mem_drain_iff : .ok p ∈ (PlanStream.pruned run).drain.1 ↔
    ∃ d ∈ c.first.upTo c.last, ∃ o,
      q.holds (truthAt (bitmapsOf store table) d.text o) = true ∧
      ShardPlan.ofShard? c (Shard.ofDay d.text o)
        (q.trueBranches (truthAt (bitmapsOf store table) d.text o)) = some p := by
  have hday : ∀ d ∈ c.first.upTo c.last, p ∈ plansOfDay store c q table d.text ↔
      ∃ o, q.holds (truthAt (bitmapsOf store table) d.text o) = true ∧
        ShardPlan.ofShard? c (Shard.ofDay d.text o)
          (q.trueBranches (truthAt (bitmapsOf store table) d.text o)) = some p := by
    intro d hd
    have hplanned := isPlannedBy_plansOfDay hq hfits (List.mem_map_of_mem hd)
    obtain ⟨r, hr⟩ : ∃ r, (scanDay store table (q.indexedTerms c.indexed) d.text).entry = .ok r :=
      exists_ok_scanDay hbits
    rw [hr] at hplanned
    obtain ⟨offsets, -, hmem, hplans⟩ := hplanned
    rw [hplans, List.mem_filterMap]
    exact exists_congr fun o => and_congr_left fun _ => hmem o
  rw [drain_of_start htable hyear hq hfits hrun, PlanStream.ok_mem_map_ok_iff, PlanConfig.days,
    List.flatMap_map, List.mem_flatMap]
  exact exists_congr fun d => and_congr_right (hday d)

/-- A run over the day index finds just what its query asks for. -/
theorem finds_of_start (hrecords : RecordsBits c docs (bitmapsOf store table))
    (hpattern : Pattern.ofText? ({} : PlanSettings).idPattern = some c.idPattern)
    (hfirst : 0 ≤ c.first.year) (hlast : c.last.year ≤ 9999)
    (hover : q.OverTerms fun field _ => Lookup.LooksUp c field) :
    (PlanStream.pruned run).Finds c docs Document.shows q := by
  constructor
  · intro d hd hwithin hsat
    have hdays := (Date.mem_upTo_iff d.next?_ne_none).mpr hwithin
    have htrue := holds_truthAt hrecords hd hover hsat
    obtain ⟨p, hp, hshard⟩ := ShardPlan.exists_ofShard?_of_admits
      (q.trueBranches (truthAt (bitmapsOf store table) d.day.text d.number))
      (PlanConfig.admits_shard hpattern d)
    refine ⟨p, ?_, hshard⟩
    exact (mem_drain_iff htable hyear hq hfits hbits hrun).mpr ⟨d.day, hdays, d.number, htrue, hp⟩
  · intro p hp d hd hshard
    obtain ⟨e, he, o, htrue, hmake⟩ := (mem_drain_iff htable hyear hq hfits hbits hrun).mp hp
    obtain ⟨hfirst', hlast'⟩ := Date.le_of_mem_upTo he
    have hshort : e.HasShortYear := ⟨Int.le_trans hfirst (Date.year_le_of_le hfirst'),
      Int.le_trans (Date.year_le_of_le hlast') hlast⟩
    rw [ShardPlan.shard_of_make? hmake] at hshard
    obtain ⟨rfl, rfl⟩ := Index.Layout.ofDay_injective d.year_mem hshort hshard
    rw [Document.Satisfies, ShardPlan.holds_of_make? hmake]
    exact satisfies_trueBranches hrecords hd hover htrue

end Plans

end DayRun

end ShardedSearch
