import ShardedSearch.Proofs.Plan.Soundness

/-! # Runs over indexed terms

A query that the shard index answers has a run with the plans of the shards where it has
evidence. If the index is built from documents, these plans find just what the query asks for,
and in each of their shards the terms with documents make the query true.
-/

namespace ShardedSearch

open Candidate
open Index.Layout (shardOf)
open Merge (Reading Stream World)
open Store (Table)

namespace Lookup

variable {c : PlanConfig} {t : Table} {docs : List Document} {p : Planner} {q : Query}
variable {id : ShardId} {field value : String}

/-! ### Evidence and truth -/

section Truth

variable {term : String → String → ShardId → Option Evidence} {truth : Query → Bool}
variable {wanted : String → String → Prop}

theorem isSome_of_conj? {os : List (Option Evidence)} {as : List Evidence} {ds : List Query}
    {e : Evidence} (h : Evidence.conj? os as ds = some e) : ∀ o ∈ os, o.isSome = true := by
  unfold Evidence.conj? at h
  split at h
  · assumption
  · cases h

theorem exists_isSome_of_disj? {os : List (Option Evidence)} {ds : List Query} {e : Evidence}
    (h : Evidence.disj? os ds = some e) : ∃ o ∈ os, o.isSome = true := by
  by_contra hn
  have hnone : Evidence.disj? os ds = none := Evidence.disj?_eq_none_iff.mpr fun o ho =>
    Option.not_isSome_iff_eq_none.mp fun hs => hn ⟨o, ho, hs⟩
  rw [hnone] at h
  cases h

theorem mem_evidencesOf?_iff {cs : List Query} {o : Option Evidence} :
    o ∈ evidencesOf? term id cs ↔ ∃ c ∈ cs, evidenceOf? term id c = o := by
  rw [evidencesOf?_eq, List.map_map, List.mem_map]
  rfl

mutual

theorem holds_of_evidenceOf? (hterm : ∀ field value e, wanted field value →
      term field value id = some e → truth (.equals field value) = true) :
    ∀ (q : Query) {e : Evidence}, q.OverTerms wanted → evidenceOf? term id q = some e →
      q.holds truth = true
  | .equality field (some value), e, hq, h => hterm field value e hq h
  | .and cs, e, hq, h => by
    rw [Query.holds_and, List.all_eq_true]
    refine fun c hc => holds_of_mem hterm cs hq.2 c hc ?_
    exact isSome_of_conj? h _ (mem_evidencesOf?_iff.mpr ⟨c, hc, rfl⟩)
  | .or cs, e, hq, h => by
    rw [Query.holds_or, List.any_eq_true]
    obtain ⟨o, ho, hsome⟩ := exists_isSome_of_disj? h
    obtain ⟨c, hc, rfl⟩ := mem_evidencesOf?_iff.mp ho
    exact ⟨c, hc, holds_of_mem hterm cs hq.2 c hc hsome⟩

theorem holds_of_mem (hterm : ∀ field value e, wanted field value →
      term field value id = some e → truth (.equals field value) = true) :
    ∀ cs : List Query, Query.AllOverTerms wanted cs → ∀ c ∈ cs,
      (evidenceOf? term id c).isSome = true → c.holds truth = true
  | d :: ds, hcs, c, hc, h => by
    rcases List.mem_cons.mp hc with heq | hc
    · obtain ⟨e, he⟩ := Option.isSome_iff_exists.mp (heq ▸ h)
      exact heq ▸ holds_of_evidenceOf? hterm d hcs.1 he
    · exact holds_of_mem hterm ds hcs.2 c hc h

end

end Truth

/-! ### Documents behind evidence -/

/-- A shard index that is built from documents: it records them, and every entry about an
indexed field stems from one of them. -/
structure Mirrors (c : PlanConfig) (docs : List Document) (t : Table) : Prop
    extends Records c docs t where
  stems : ∀ e ∈ t.toList, c.isIndexed e.1.family = true →
    ∃ d ∈ docs, d.shard = shardOf e.1 ∧ (e.1.family, e.1.row) ∈ d.pairs

theorem exists_document_of_termAt {e : Evidence} (h : Mirrors c docs t)
    (hfield : c.isIndexed field = true) (he : termAt c t field value id = some e) :
    ∃ d ∈ docs, d.shard = id ∧ (field, value) ∈ d.pairs ∧
      Index.Layout.InDays c.firstDay c.lastDay id := by
  obtain ⟨x, hx, rfl⟩ := exists_entry_of_termEvidence? he
  have hdays := inDays_of_mem_termEntries hx
  obtain ⟨hmem, hrange⟩ := List.mem_filter.mp hx
  have hrange := (Bool.and_eq_true_iff.mp hrange).1
  obtain ⟨rfl, rfl, -⟩ := Index.Layout.contains_termRange_iff.mp hrange
  obtain ⟨d, hd, hshard, hpair⟩ := h.stems x hmem hfield
  exact ⟨d, hd, hshard, hpair, hdays⟩

mutual

theorem isPlannable_of_overTerms : ∀ q : Query, q.OverTerms (fun field _ => LooksUp c field) →
    q.IsPlannable c
  | .equality field (some value), h => by
    obtain ⟨hindexed, hfield⟩ := Bool.and_eq_true_iff.mp h.1
    refine ⟨by simpa using hfield, ?_⟩
    rw [PlanConfig.isKnown, hindexed, Bool.or_true]
  | .and cs, h => ⟨h.1, allPlannable_of_overTerms cs h.2⟩
  | .or cs, h => ⟨h.1, allPlannable_of_overTerms cs h.2⟩

theorem allPlannable_of_overTerms : ∀ qs : List Query,
    Query.AllOverTerms (fun field _ => LooksUp c field) qs → Query.AllPlannable c qs
  | [], _ => trivial
  | q :: qs, h => ⟨isPlannable_of_overTerms q h.1, allPlannable_of_overTerms qs h.2⟩

end

theorem keeps_of_tells {w : World} {r : Reading} {f : ShardId → Option Evidence}
    (hr : r.IsSound w q) (h : Tells f r) : w.Keeps q f := by
  cases r with
  | absent =>
    have hnone : ∀ id, f id = none := h
    constructor
    · intro id e he
      rw [hnone] at he
      cases he
    · intro d hd hq
      rw [show w.holds q d = false from hr d hd] at hq
      cases hq
    · intro d hd e he
      rw [hnone] at he
      cases he
  | present g => exact (show g = f from h) ▸ hr.2
  | delayed => exact h.elim
  | mixed => exact h.elim

theorem keeps_evidenceOf? (h : Records c docs t) (htypes : c.settings.lookup.datatypes = [])
    (hq : q.OverTerms fun field _ => LooksUp c field) :
    (worldOf c docs Document.shows).Keeps q fun id => evidenceOf? (termAt c t) id q := by
  refine keeps_of_tells (isSound_readingOf (fun _ field value hf => ?_) [] q
    (isPlannable_of_overTerms q hq)) (tells_listedReading hq)
  exact isSound_listed (keeps_termCandidates h htypes (isIndexed_of_looksUp hf) fun _ _ => rfl)

end Lookup

namespace PlanRun

open Lookup

variable {p : Planner} {t : Table} {docs : List Document} {q : Query} {run : PlanRun}

theorem exists_candidates_of_start (hp : HasIndex p t)
    (hq : q.OverTerms fun field _ => LooksUp p.config field)
    (hrun : start p.lookupContext q = .ok run) :
    ∃ cs, Ascending cs ∧
      (∀ id, evidenceAt cs id = evidenceOf? (termAt p.config t) id q.flatten) ∧
      (PlanStream.lookup run).drain.1 = (plansOf p.config cs).map .ok := by
  obtain ⟨root, hvalue, heq⟩ := eq_of_start hrun
  obtain ⟨hroot, hr⟩ := eq_of_yields (yields_listedReading hp hq) hvalue
  have htells := tells_listedReading (t := t) (Query.overTerms_flatten hq)
  have hctx := Stream.context_of_realises hr
  generalize listedReading p.config t q.flatten = r at hr htells hctx
  cases r with
  | absent =>
    refine ⟨[], .nil, fun id => (htells id).symm, ?_⟩
    refine drain_of_root_eq_none ?_ ?_
    · rw [heq, hctx]
      rfl
    · rw [heq, hroot]
      rfl
  | present g =>
    obtain ⟨-, cs, hcs, hat⟩ := hr
    obtain ⟨hemits, -, hconfig⟩ :=
      emits_of_start hrun hroot (by rw [hctx]; rfl) hcs
    refine ⟨cs, hcs.isListing.ascending, fun id => (hat id).trans (congrFun htells id), ?_⟩
    rw [drain_of_emits hemits, hconfig]
    rfl
  | delayed => exact htells.elim
  | mixed => exact htells.elim

theorem finds_of_start (hp : HasIndex p t) (hindex : Records p.config docs t)
    (htypes : p.config.settings.lookup.datatypes = [])
    (hpattern : Pattern.ofText? ({} : PlanSettings).idPattern = some p.config.idPattern)
    (hlast : p.config.last.year ≤ 9999) (hq : q.OverTerms fun field _ => LooksUp p.config field)
    (hrun : start p.lookupContext q = .ok run) :
    (PlanStream.lookup run).Finds p.config docs Document.shows q := by
  obtain ⟨cs, hasc, hat, hdrain⟩ := exists_candidates_of_start hp hq hrun
  have hkeeps := keeps_evidenceOf? hindex htypes (Query.overTerms_flatten hq)
  rw [← funext hat] at hkeeps
  exact finds_of_keeps hdrain hasc hkeeps hpattern fun d hwithin =>
    Index.Layout.inDays_ofDay_of_le d.year_mem hwithin.1 hwithin.2 hlast

theorem exists_evidence_of_plan (hp : HasIndex p t)
    (hq : q.OverTerms fun field _ => LooksUp p.config field)
    (hrun : start p.lookupContext q = .ok run) {pl : ShardPlan}
    (hpl : .ok pl ∈ (PlanStream.lookup run).drain.1) :
    p.config.admits pl.shard = true ∧
      ∃ e, evidenceOf? (termAt p.config t) pl.shard q.flatten = some e := by
  obtain ⟨cs, hasc, hat, hdrain⟩ := exists_candidates_of_start hp hq hrun
  rw [hdrain, PlanStream.ok_mem_map_ok_iff] at hpl
  obtain ⟨k, hk, hmake⟩ := List.mem_filterMap.mp hpl
  have hshard := ShardPlan.shard_of_make? hmake
  refine ⟨?_, k.evidence, ?_⟩
  · rw [hshard]
    exact ShardPlan.admits_of_make? hmake
  · rw [← hat, hshard]
    exact (evidenceAt_eq_some_iff hasc).mpr hk

end PlanRun

end ShardedSearch
