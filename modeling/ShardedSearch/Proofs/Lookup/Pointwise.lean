import ShardedSearch.Plan.Planner
import ShardedSearch.Proofs.Lookup.Reading
import ShardedSearch.Proofs.Lookup.Scan
import ShardedSearch.Proofs.Pattern.Shard
import ShardedSearch.Proofs.Query.Terms

/-! # Look-ups shard by shard

The root stream of a query over indexed terms lists a shard exactly if the query, read at
that shard alone, has evidence there. Leaves, unions and intersections are streams; what
they list together is the same as combining the evidence of single shards.
-/

namespace ShardedSearch

open Candidate
open Merge (Reading Stream)
open Store (Table)

namespace Lookup

section

variable (term : String → String → ShardId → Option Evidence) (id : ShardId)

mutual

/-- The evidence of a query for a shard, given that of its terms: a conjunction needs evidence
of all clauses, a disjunction of one. -/
def evidenceOf? : Query → Option Evidence
  | .equality field (some value) => term field value id
  | .and cs => Evidence.conj? (evidencesOf? cs) [] []
  | .or cs => Evidence.disj? (evidencesOf? cs) []
  | _ => none

def evidencesOf? : List Query → List (Option Evidence)
  | [] => []
  | c :: cs => evidenceOf? c :: evidencesOf? cs

end

end

theorem evidencesOf?_eq (term : String → String → ShardId → Option Evidence) (id : ShardId)
    (cs : List Query) :
    evidencesOf? term id cs = (cs.map fun q id => evidenceOf? term id q).map (· id) := by
  induction cs with
  | nil => rfl
  | cons c cs ih => rw [evidencesOf?, ih]; rfl

def termAt (c : PlanConfig) (t : Table) (field value : String) (id : ShardId) : Option Evidence :=
  termEvidence? (.equals field value) (listsAt (termEntries c t field value) id)

/-- Whether a reading has the given evidence for every shard and defers nothing. -/
def Tells (f : ShardId → Option Evidence) : Reading → Prop
  | .absent => ∀ id, f id = none
  | .present g => g = f
  | _ => False

variable {rs : List Reading} {fs : List (ShardId → Option Evidence)} {q : Query}
variable {cs : List Candidate} {f : ShardId → Option Evidence}

theorem tells_listed (h : ∀ id, evidenceAt cs id = f id) : Tells f (.listed cs) := by
  cases cs with
  | nil => exact fun id => (h id).symm
  | cons c cs => exact funext h

theorem parts_of_tells (h : List.Forall₂ Tells fs rs) :
    rs.filterMap Reading.answers? = [] ∧ rs.filterMap Reading.delayed? = [] ∧
      rs.filterMap Reading.deferred? = [] := by
  induction h with
  | nil => exact ⟨rfl, rfl, rfl⟩
  | @cons f r _ _ h _ ih => cases r <;> first | exact ih | exact h.elim

theorem filterMap_of_tells (h : List.Forall₂ Tells fs rs) (id : ShardId) :
    (rs.filterMap Reading.evidence?).filterMap (· id) = fs.filterMap (· id) := by
  induction h with
  | nil => rfl
  | @cons f r fs rs h _ ih =>
    cases r with
    | absent =>
      rw [List.filterMap_cons (a := f), show f id = none from h id]
      exact ih
    | present g =>
      obtain rfl : g = f := h
      change ((g :: rs.filterMap Reading.evidence?).filterMap (· id)) = _
      rw [List.filterMap_cons, List.filterMap_cons, ih]
    | delayed => exact h.elim
    | mixed => exact h.elim

theorem evidence_of_tells (h : List.Forall₂ Tells fs rs)
    (hn : ¬ ∃ r ∈ rs, r.context = .absent) : rs.filterMap Reading.evidence? = fs := by
  induction h with
  | nil => rfl
  | @cons f r fs rs h _ ih =>
    have htail := ih fun ⟨r, hr, hctx⟩ => hn ⟨r, List.mem_cons_of_mem _ hr, hctx⟩
    cases r with
    | absent => exact absurd ⟨_, List.mem_cons_self, rfl⟩ hn
    | present g =>
      obtain rfl : g = f := h
      exact congrArg (g :: ·) htail
    | delayed => exact h.elim
    | mixed => exact h.elim

theorem exists_none_of_tells (h : List.Forall₂ Tells fs rs)
    (ha : ∃ r ∈ rs, r.context = .absent) : ∃ f ∈ fs, ∀ id, f id = none := by
  induction h with
  | nil => simp at ha
  | @cons f r fs rs h _ ih =>
    obtain ⟨s, hs, hctx⟩ := ha
    rcases List.mem_cons.mp hs with rfl | hs
    · cases s with
      | absent => exact ⟨f, List.mem_cons_self, h⟩
      | _ => simp [Reading.context] at hctx
    · obtain ⟨g, hg, hnone⟩ := ih ⟨s, hs, hctx⟩
      exact ⟨g, List.mem_cons_of_mem _ hg, hnone⟩

theorem tells_all (h : List.Forall₂ Tells fs rs) (hne : fs ≠ []) :
    Tells (fun id => Evidence.conj? (fs.map (· id)) [] []) (.all q rs) := by
  unfold Reading.all
  split
  · next ha =>
    obtain ⟨f, hf, hnone⟩ := exists_none_of_tells h ha
    intro id
    refine if_neg fun hall => ?_
    have := hall (f id) (List.mem_map.mpr ⟨f, hf, rfl⟩)
    rw [hnone id] at this
    exact Bool.noConfusion this
  · next ha =>
    obtain ⟨hanswers, hdelayed, -⟩ := parts_of_tells h
    rw [evidence_of_tells h ha, hanswers, hdelayed]
    cases fs with
    | nil => exact absurd rfl hne
    | cons f fs => rfl

theorem disj?_congr {os ps : List (Option Evidence)} (h : os.filterMap (·) = ps.filterMap (·)) :
    Evidence.disj? os [] = Evidence.disj? ps [] := by rw [Evidence.disj?, Evidence.disj?, h]

theorem tells_any (h : List.Forall₂ Tells fs rs) :
    Tells (fun id => Evidence.disj? (fs.map (· id)) []) (.any q rs) := by
  unfold Reading.any
  rw [(parts_of_tells h).2.2]
  have hat : ∀ id, Evidence.disj? ((rs.filterMap Reading.evidence?).map (· id)) [] =
      Evidence.disj? (fs.map (· id)) [] := by
    refine fun id => disj?_congr ?_
    rw [List.filterMap_map, List.filterMap_map]
    exact filterMap_of_tells h id
  cases hes : rs.filterMap Reading.evidence? with
  | nil =>
    intro id
    change Evidence.disj? (fs.map (· id)) [] = none
    rw [← hat id, hes]
    rfl
  | cons g gs =>
    rw [hes] at hat
    exact funext hat

mutual

theorem isTermwise_of_overTerms {p : String → String → Prop} : ∀ q : Query,
    q.OverTerms p → q.isTermwise = true
  | .equality _ (some _), _ => rfl
  | .and cs, h => eachTermwise_of_allOverTerms cs h.2
  | .or cs, h => eachTermwise_of_allOverTerms cs h.2

theorem eachTermwise_of_allOverTerms {p : String → String → Prop} : ∀ qs : List Query,
    Query.AllOverTerms p qs → Query.eachTermwise qs = true
  | [], _ => rfl
  | q :: qs, h => by
    rw [Query.eachTermwise, isTermwise_of_overTerms q h.1, eachTermwise_of_allOverTerms qs h.2]
    rfl

end

section

variable {c : PlanConfig} {terms : Place → String → String → Reading}
variable {term : String → String → ShardId → Option Evidence}

mutual

/-- A query over looked-up terms reads the same at every shard as shard by shard. -/
theorem tells_readingOf (hterm : ∀ place field value, Tells (term field value)
    (terms place field value)) : ∀ (place : Place) (q : Query),
    q.OverTerms (fun field _ => LooksUp c field) →
      Tells (fun id => evidenceOf? term id q) (readingOf c terms place q)
  | place, .equality field (some value), hq => by
    rw [readingOf, equalityReading_of_looksUp hq]
    exact hterm place field value
  | place, .and cs, hq => by
    have h := tells_all (q := .and cs) (tells_readingsOf hterm place 0 cs hq.2)
      (by simpa using hq.1)
    rw [readingOf]
    simpa only [evidenceOf?, evidencesOf?_eq] using h
  | place, .or cs, hq => by
    have h := tells_any (q := .or cs) (tells_readingsOf hterm place 0 cs hq.2)
    rw [readingOf]
    simpa only [evidenceOf?, evidencesOf?_eq] using h

theorem tells_readingsOf (hterm : ∀ place field value, Tells (term field value)
    (terms place field value)) : ∀ (place : Place) (position : Nat) (qs : List Query),
    Query.AllOverTerms (fun field _ => LooksUp c field) qs →
      List.Forall₂ Tells (qs.map fun q id => evidenceOf? term id q)
        (readingsOf c terms place position qs)
  | _, _, [], _ => .nil
  | place, position, q :: qs, hq =>
    .cons (tells_readingOf hterm (position :: place) q hq.1)
      (tells_readingsOf hterm place (position + 1) qs hq.2)

end

end

/-! ### Shards of the root stream -/

/-- A planner with a shard index that can be scanned without failures and values that can be
read. -/
structure HasUidLists (p : Planner) (t : Table) : Prop where
  table : p.store.tables.get? p.config.settings.tables.shardIndex = some t
  available : p.config.settings.tables.shardIndex ∉ p.store.unavailable
  unlimited : ∀ range, p.store.readLimit p.config.settings.tables.shardIndex (some range) = none
  lists : ∀ e ∈ t.toList, IsUidList e.2

structure HasIndex (p : Planner) (t : Table) : Prop where
  table : p.store.tables.get? p.config.settings.tables.shardIndex = some t
  available : p.config.settings.tables.shardIndex ∉ p.store.unavailable
  unlimited : ∀ range, p.store.readLimit p.config.settings.tables.shardIndex (some range) = none
  valid : IsShardIndex t

variable {c : PlanConfig} {p : Planner} {t : Table}

theorem HasIndex.hasUidLists (h : HasIndex p t) : HasUidLists p t :=
  ⟨h.table, h.available, h.unlimited, fun e he => (h.valid e he).2⟩

theorem sees_of_hasUidLists (h : HasUidLists p t) (place : Place) (range : Store.Range) :
    Sees p.lookupContext place range t := by
  refine ⟨p.config.settings.tables.shardIndex, p.store.readLimit, ?_, h.unlimited range⟩
  change p.store.openScanner p.config.settings.tables.shardIndex = _
  rw [Store.openScanner, if_neg h.available, h.table]

theorem sees_of_hasIndex (h : HasIndex p t) (place : Place) (range : Store.Range) :
    Sees p.lookupContext place range t := sees_of_hasUidLists h.hasUidLists place range

theorem tells_termCandidates (c : PlanConfig) (t : Table) (field value : String) :
    Tells (termAt c t field value)
      (.listed (termCandidates (.equals field value) (termEntries c t field value))) :=
  tells_listed (evidenceAt_termCandidates (byShard_termEntries c t field value)).2

def listedReading (c : PlanConfig) (t : Table) (q : Query) : Reading :=
  readingOf c (fun _ field value => .listed (termCandidates (.equals field value)
    (termEntries c t field value))) [] q

theorem listedReading_and {qs : List Query} :
    listedReading c t (.and qs) = .all (.and qs) (qs.map (listedReading c t)) := by
  rw [listedReading, readingOf, readingsOf_eq]
  rfl

theorem listedReading_or {qs : List Query} :
    listedReading c t (.or qs) = .any (.or qs) (qs.map (listedReading c t)) := by
  rw [listedReading, readingOf, readingsOf_eq]
  rfl

theorem tells_listedReading (hq : q.OverTerms fun field _ => LooksUp c field) :
    Tells (fun id => evidenceOf? (termAt c t) id q) (listedReading c t q) :=
  tells_readingOf (fun _ => tells_termCandidates c t) [] q hq

theorem yields_listedReading (hp : HasIndex p t)
    (hq : q.OverTerms fun field _ => LooksUp p.config field) :
    Stream.Yields (canHold (batchSize p.lookupContext) = false)
      (rootOf p.lookupContext q.flatten) (listedReading p.config t q.flatten) :=
  yields_rootOf (fun place _ _ _ => yields_term (sees_of_hasIndex hp place _) hp.valid)
    (Query.isFlat_flatten q) (isTermwise_of_overTerms _ (Query.overTerms_flatten hq))

theorem exists_rootOf (hp : HasIndex p t) (hbatch : canHold (batchSize p.lookupContext) = true)
    (hq : q.OverTerms fun field _ => LooksUp p.config field) :
    ∃ root, rootOf p.lookupContext q.flatten = pure root ∧
      root.Realises (listedReading p.config t q.flatten) := by
  rcases yields_listedReading hp hq with ⟨hlost, -⟩ | ⟨root, hroot, hr⟩
  · rw [hbatch] at hlost
    cases hlost
  · exact ⟨root, hroot, hr⟩

theorem drain_of_tells {s : Stream} {r : Reading} (hr : s.Realises r) (h : Tells f r) :
    ∃ cs rest, s.drain = pure (cs, rest) ∧ Ascending cs ∧ ∀ id, evidenceAt cs id = f id := by
  cases r with
  | absent =>
    obtain ⟨-, rest, hdrain⟩ := hr
    exact ⟨[], rest, hdrain, .nil, fun id => (h id).symm⟩
  | present g =>
    obtain ⟨-, cs, hcs, hat⟩ := hr
    obtain ⟨rest, hdrain⟩ := Stream.drain_of_emits hcs
    exact ⟨cs, rest, hdrain, hcs.isListing.ascending, fun id => (hat id).trans (congrFun h id)⟩
  | delayed => exact h.elim
  | mixed => exact h.elim

/-- The root stream lists exactly the shards with evidence, once each and in order, as long as
there is memory for a batch. -/
theorem root_lists_evidence (hp : HasIndex p t)
    (hbatch : canHold (batchSize p.lookupContext) = true)
    (hq : q.allIndexed p.config.indexed = true) (htype : Query.datatypeField ∉ q.fieldList) :
    ∃ root cs rest, rootOf p.lookupContext q.flatten = pure root ∧
      root.drain = pure (cs, rest) ∧ Ascending cs ∧
      ∀ id e, ⟨id, e⟩ ∈ cs ↔ evidenceOf? (termAt p.config t) id q.flatten = some e := by
  have hover := Query.overTerms_of_allIndexed q hq htype
  obtain ⟨root, hroot, hr⟩ := exists_rootOf hp hbatch hover
  obtain ⟨cs, rest, hdrain, hasc, hat⟩ :=
    drain_of_tells hr (tells_listedReading (Query.overTerms_flatten hover))
  refine ⟨root, cs, rest, hroot, hdrain, hasc, fun id e => ?_⟩
  rw [← evidenceAt_eq_some_iff hasc, hat]

/-! ### Small indexes -/

def twoShardIndex : Table :=
  .ofList [(Index.Layout.termKey "1" "A" "20240102_0" "log", [1, 0, 1, 1, 117]),
    (Index.Layout.termKey "1" "A" "20240102_1" "log", [1, 0, 1, 1, 118]),
    (Index.Layout.termKey "2" "B" "20240102_1" "log", [1, 0, 1, 1, 118])]

def twoShardPlanner : Planner where
  store := ⟨.ofList [("shardIndex", twoShardIndex)], .empty, fun _ _ => none⟩
  config := ⟨{ lookup := { batchSize := 1 } }, .empty, .small, .small, by decide,
    .ofList ["A", "B"], .empty, .empty, .shard⟩
  counts := .ofList []

theorem isShardIndex_twoShardIndex : IsShardIndex twoShardIndex := by
  have hentries : ∀ e ∈ twoShardIndex.toList, Shard.isDay (Index.Layout.shardOf e.1) = false ∧
      (e.2 = [1, 0, 1, 1, 117] ∨ e.2 = [1, 0, 1, 1, 118]) := by decide
  intro e he
  obtain ⟨hshard, hvalue | hvalue⟩ := hentries e he
  · exact ⟨hshard, hvalue ▸ ⟨.exact ["u"], by decide⟩⟩
  · exact ⟨hshard, hvalue ▸ ⟨.exact ["v"], by decide⟩⟩

theorem hasIndex_twoShardPlanner : HasIndex twoShardPlanner twoShardIndex where
  table := rfl
  available := SortedSet.not_mem_empty _
  unlimited _ := rfl
  valid := isShardIndex_twoShardIndex

theorem root_lists_twoShardIndex :
    ∃ root cs rest, rootOf twoShardPlanner.lookupContext Query.nested.flatten = pure root ∧
      root.drain = pure (cs, rest) ∧ Ascending cs ∧
      ∀ id e, ⟨id, e⟩ ∈ cs ↔
        evidenceOf? (termAt twoShardPlanner.config twoShardIndex) id Query.nested.flatten = some e :=
  root_lists_evidence hasIndex_twoShardPlanner (by decide) (by decide) (by decide)

def smallIndex : Table :=
  .ofList [(Index.Layout.termKey "1" "A" "20240102_0" "log", [1, 0, 1, 1, 117])]

def smallPlanner (batchSize : Nat) : Planner where
  store := ⟨.ofList [("shardIndex", smallIndex)], .empty, fun _ _ => none⟩
  config := ⟨{ lookup := { batchSize } }, .empty, .small, .small, by decide, .ofList ["A"],
    .empty, .empty, .shard⟩
  counts := .ofList []

theorem hasIndex_smallPlanner (n : Nat) : HasIndex (smallPlanner n) smallIndex where
  table := rfl
  available := SortedSet.not_mem_empty _
  unlimited _ := rfl
  valid := by
    intro e he
    obtain rfl : e = (Index.Layout.termKey "1" "A" "20240102_0" "log", [1, 0, 1, 1, 117]) := by
      simpa using (show e ∈ [_] from he)
    exact ⟨by decide, .exact ["u"], by decide⟩

/-- A batch that there is no memory for loses the root stream, although a shard has evidence. -/
theorem root_lost_with_large_batch :
    HasIndex (smallPlanner (2 ^ 64 - 1)) smallIndex ∧
      1 ≤ batchSize (smallPlanner (2 ^ 64 - 1)).lookupContext ∧
      (Query.equals "A" "1").allIndexed (smallPlanner (2 ^ 64 - 1)).config.indexed = true ∧
      Query.datatypeField ∉ (Query.equals "A" "1").fieldList ∧
      (evidenceOf? (termAt (smallPlanner (2 ^ 64 - 1)).config smallIndex) "20240102_0"
        (Query.equals "A" "1").flatten).isSome = true ∧
      ¬ ∃ root, rootOf (smallPlanner (2 ^ 64 - 1)).lookupContext (Query.equals "A" "1").flatten =
        pure root := by
  refine ⟨hasIndex_smallPlanner _, by decide, by decide, by decide, by decide +kernel, ?_⟩
  rintro ⟨root, hroot⟩
  have hlost : rootOf (smallPlanner (2 ^ 64 - 1)).lookupContext (Query.equals "A" "1").flatten =
      throw (.error .abandoned) := rfl
  have hvalue : (Except.error (.error .abandoned) : Except Failure Stream) = .ok root :=
    congrArg Raising.value (hlost.symm.trans hroot)
  cases hvalue

end Lookup

end ShardedSearch
