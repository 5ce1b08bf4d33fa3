import ShardedSearch.Proofs.DayIndex.Documents
import ShardedSearch.Proofs.Plan.Indexed

/-! # Agreement of the two routes

A query over terms can be planned with the shard index or with the bitmaps of days. If both
indexes are built from the same documents, both routes find just the documents that satisfy the
query, and the bitmaps prune no shard that the shard index has evidence for.
-/

namespace ShardedSearch

open Candidate DayIndex Lookup
open Store (Table)

namespace Planner

variable {p : Planner} {t bits : Table} {docs : List Document} {q : Query} {id : ShardId}

def hasEvidence (c : PlanConfig) (t : Table) (id : ShardId) : Query → Bool
  | .equality field (some value) => (termAt c t field value id).isSome
  | _ => false

/-- Where the shard index has evidence for a query, the query is true by the bitmaps. -/
theorem exists_truthAt_of_evidence {c : PlanConfig} {e : Evidence} (hindex : Mirrors c docs t)
    (hrecords : RecordsBits c docs bits) (hfirst : c.first.HasShortYear)
    (hlast : c.last.HasShortYear) (hq : q.OverTerms fun field _ => LooksUp c field)
    (he : evidenceOf? (termAt c t) id q = some e) :
    ∃ d ∈ c.first.upTo c.last, ∃ n, id = Shard.ofDay d.text n ∧
      q.holds (truthAt bits d.text n) = true := by
  have hevidence : q.holds (hasEvidence c t id) = true :=
    holds_of_evidenceOf? (fun _ _ _ _ hterm => Option.isSome_of_eq_some hterm) q hq he
  obtain ⟨field, value, hfield, hsome⟩ := Query.exists_of_holds q hq hevidence
  obtain ⟨e', he'⟩ := Option.isSome_iff_exists.mp hsome
  obtain ⟨d, -, hshard, -, hdays⟩ :=
    exists_document_of_termAt hindex (isIndexed_of_looksUp hfield) he'
  rw [← hshard, Document.shard, PlanConfig.firstDay, PlanConfig.lastDay,
    Index.Layout.inDays_ofDay_iff d.year_mem hfirst hlast] at hdays
  refine ⟨d.day, (Calendar.Date.mem_upTo_iff d.next?_ne_none).mpr hdays, d.number, hshard.symm, ?_⟩
  refine holds_of_evidenceOf? (fun field value e hfield hterm => ?_) q hq he
  -- All terms with evidence have documents in one and the same shard.
  obtain ⟨d', hd', hshard', hpair, -⟩ :=
    exists_document_of_termAt hindex (isIndexed_of_looksUp hfield) hterm
  obtain ⟨hday, hnumber⟩ := Index.Layout.ofDay_injective d'.year_mem d.year_mem
    (hshard'.trans hshard.symm)
  rw [← hday, ← hnumber]
  exact hrecords d' hd' _ hpair (isIndexed_of_looksUp hfield)

/-- What plans by the bitmaps of days presuppose: a day index with all indexed pairs of the
documents, whose entries can be read, and no year index. -/
structure HasDayIndex (p : Planner) (docs : List Document) (q : Query) (table : String) :
    Prop where
  named : p.config.settings.tables.dayIndex = some table
  daily : yearTable? p.config = none
  readable : HasBitmaps p.store table
  fits : FitsMemory (q.indexedTerms p.config.indexed) (bitmapsOf p.store table)
  records : RecordsBits p.config docs (bitmapsOf p.store table)

/-- The bitmaps prune no shard that the shard index has evidence for. -/
theorem covers_of_evidence {table : String} {run : DayRun} {e : Evidence}
    (hindex : Mirrors p.config docs t) (hdays : p.HasDayIndex docs q table)
    (hfirst : p.config.first.HasShortYear) (hlast : p.config.last.HasShortYear)
    (hall : q.allIndexed p.config.indexed = true)
    (hover : q.OverTerms fun field _ => LooksUp p.config field)
    (hrun : DayRun.start p.store p.config q = .ok run) (hadmits : p.config.admits id = true)
    (he : evidenceOf? (termAt p.config t) id q.flatten = some e) :
    (PlanStream.pruned run).Covers id := by
  obtain ⟨d, hd, n, rfl, htrue⟩ := exists_truthAt_of_evidence hindex hdays.records hfirst hlast
    (Query.overTerms_flatten hover) he
  rw [Query.holds_flatten] at htrue
  obtain ⟨pl, hpl, hshard⟩ := ShardPlan.exists_ofShard?_of_admits
    (q.trueBranches (truthAt (bitmapsOf p.store table) d.text n)) hadmits
  refine ⟨pl, ?_, hshard⟩
  exact (DayRun.mem_drain_iff hdays.named hdays.daily hall hdays.fits hdays.readable hrun).mpr
    ⟨d, hd, n, htrue, hpl⟩

/-- Pruning never changes what is found. With both indexes built from the same documents, the
day index plans every shard that the shard index plans, and the plans of either route find just
the documents between the days of the planner that satisfy the query. -/
theorem finds_same_documents {table : String} (hp : HasIndex p t)
    (hindex : Mirrors p.config docs t) (hdays : p.HasDayIndex docs q table)
    (htypes : p.config.settings.lookup.datatypes = [])
    (hpattern : Pattern.ofText? ({} : PlanSettings).idPattern = some p.config.idPattern)
    (hfirst : 0 ≤ p.config.first.year) (hlast : p.config.last.year ≤ 9999)
    (hall : q.allIndexed p.config.indexed = true) (htype : Query.datatypeField ∉ q.fieldList) :
    ∃ pruned, DayRun.start p.store p.config q = .ok pruned ∧
      (PlanStream.pruned pruned).Finds p.config docs Document.shows q ∧
      (canHold (batchSize p.lookupContext) = true →
        (∃ tree, q.prepare p.config.settings.lookup.maxDepth = .ok tree) →
          ∃ run, PlanRun.start p.lookupContext q = .ok run) ∧
      ∀ run, PlanRun.start p.lookupContext q = .ok run →
        (PlanStream.lookup run).Finds p.config docs Document.shows q ∧
        (∀ id, (PlanStream.lookup run).Covers id → (PlanStream.pruned pruned).Covers id) ∧
        ∀ d ∈ docs, d.IsWithin p.config.first p.config.last →
          ((PlanStream.lookup run).Reaches Document.shows d ↔
            (PlanStream.pruned pruned).Reaches Document.shows d) := by
  have hover := Query.overTerms_of_allIndexed q hall htype
  have hle := Calendar.Date.year_le_of_le p.config.first_le_last
  have hfirst' : p.config.first.HasShortYear := ⟨hfirst, Int.le_trans hle hlast⟩
  have hlast' : p.config.last.HasShortYear := ⟨Int.le_trans hfirst hle, hlast⟩
  obtain ⟨pruned, hpruned⟩ : ∃ pruned, DayRun.start p.store p.config q = .ok pruned :=
    ⟨_, DayRun.start_eq hdays.named hdays.daily hall⟩
  have hfinds := DayRun.finds_of_start hdays.named hdays.daily hall hdays.fits hdays.readable
    hpruned hdays.records hpattern hfirst hlast hover
  refine ⟨pruned, hpruned, hfinds, fun hbatch ⟨tree, htree⟩ => ?_, fun run hrun => ?_⟩
  · obtain ⟨root, hroot, -⟩ := exists_rootOf hp hbatch hover
    exact PlanRun.exists_start htree hroot
  · have hlookup := PlanRun.finds_of_start hp hindex.toRecords htypes hpattern hlast hover hrun
    refine ⟨hlookup, fun id ⟨pl, hpl, hshard⟩ => ?_, fun d hd hwithin => ?_⟩
    · obtain ⟨hadmits, e, he⟩ := PlanRun.exists_evidence_of_plan hp hover hrun hpl
      rw [hshard] at hadmits he
      exact covers_of_evidence hindex hdays hfirst' hlast' hall hover hpruned hadmits he
    · rw [hlookup.reaches_iff hd hwithin, hfinds.reaches_iff hd hwithin]

/-! ### Two documents in both indexes -/

def bothIndexes : Planner where
  store := ⟨.ofList [("shardDayIndex", DayRun.twoShardBitmaps), ("shardIndex", twoShardIndex)],
    .empty, fun _ _ => none⟩
  config := twoShardPlanner.config
  counts := .ofList []

def twoDocuments : List Document :=
  [PlanRun.smallDocument,
    ⟨.small, PlanRun.smallDocument.year_mem, 1, "v", [("A", "1"), ("B", "2")]⟩]

theorem hasIndex_bothIndexes : HasIndex bothIndexes twoShardIndex where
  table := rfl
  available := SortedSet.not_mem_empty _
  unlimited _ := rfl
  valid := isShardIndex_twoShardIndex

theorem mirrors_bothIndexes : Mirrors bothIndexes.config twoDocuments twoShardIndex where
  valid := isShardIndex_twoShardIndex
  recorded := by
    have hentries : ∀ d ∈ twoDocuments, ∀ p ∈ d.pairs,
        (Index.Layout.termKey p.2 p.1 d.shard "log", Wire.encode (Index.UidList.exact [d.uid])) ∈
          twoShardIndex.toList := by decide +kernel
    have hvalues : ∀ d ∈ twoDocuments,
        Wire.ofBytes (Wire.encode (Index.UidList.exact [d.uid])) = .ok (Index.UidList.exact [d.uid]) := by
      decide +kernel
    exact fun d hd p hp _ => ⟨"log", _, _, hentries d hd p hp, hvalues d hd,
      .inr (List.mem_singleton_self _)⟩
  stems := by decide +kernel

theorem hasDayIndex_bothIndexes :
    bothIndexes.HasDayIndex twoDocuments .nested "shardDayIndex" where
  named := rfl
  daily := rfl
  readable := ⟨rfl, SortedSet.not_mem_empty _, fun _ => rfl⟩
  fits := DayRun.fitsMemory_twoShardBitmaps
  records := by
    have hbits : ∀ d ∈ twoDocuments, ∀ p ∈ d.pairs, DayIndex.hasTerm DayRun.twoShardBitmaps
        d.day.text p.1 p.2 d.number = true := by decide +kernel
    exact fun d hd p hp _ => hbits d hd p hp

theorem finds_same_twoDocuments :
    ∃ pruned, DayRun.start bothIndexes.store bothIndexes.config .nested = .ok pruned ∧
      (PlanStream.pruned pruned).Finds bothIndexes.config twoDocuments Document.shows .nested ∧
      (canHold (batchSize bothIndexes.lookupContext) = true →
        (∃ tree, Query.nested.prepare bothIndexes.config.settings.lookup.maxDepth = .ok tree) →
          ∃ run, PlanRun.start bothIndexes.lookupContext .nested = .ok run) ∧
      ∀ run, PlanRun.start bothIndexes.lookupContext .nested = .ok run →
        (PlanStream.lookup run).Finds bothIndexes.config twoDocuments Document.shows .nested ∧
        (∀ id, (PlanStream.lookup run).Covers id → (PlanStream.pruned pruned).Covers id) ∧
        ∀ d ∈ twoDocuments, d.IsWithin bothIndexes.config.first bothIndexes.config.last →
          ((PlanStream.lookup run).Reaches Document.shows d ↔
            (PlanStream.pruned pruned).Reaches Document.shows d) :=
  finds_same_documents hasIndex_bothIndexes mirrors_bothIndexes hasDayIndex_bothIndexes rfl
    Pattern.ofText?_default (by decide) (by decide) (by decide) (by decide)

end Planner

end ShardedSearch
