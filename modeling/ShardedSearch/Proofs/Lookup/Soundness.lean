import ShardedSearch.Proofs.Index.Days
import ShardedSearch.Proofs.Lookup.Reading
import ShardedSearch.Proofs.Lookup.Scan
import ShardedSearch.Proofs.Merge.Soundness

/-! # Soundness of look-ups

Queries that the index answers only in part. If the shard index records the documents, the
readings of terms are sound, and with them those of queries: no document is lost through
deferred clauses, scans that fail or merges of both.
-/

namespace ShardedSearch

open Index (UidList)
open Index.Layout (termKey shardOf InDays)
open Merge (Reading Stream World)
open Store (Table)

namespace Query

variable {c : PlanConfig}

mutual

/-- Whether a query joins clauses that are looked up by term or deferred as a whole, all of
them about known fields, and no join is empty. -/
def IsPlannable (c : PlanConfig) : Query → Prop
  | equality field _ => isUnfielded field = Bool.false ∧ c.isKnown field = Bool.true
  | range field .. => isUnfielded field = Bool.false
  | compare field .. => isUnfielded field = Bool.false
  | regex field _ => isUnfielded field = Bool.false
  | and cs => cs ≠ [] ∧ AllPlannable c cs
  | or cs => cs ≠ [] ∧ AllPlannable c cs
  | marked m _ => m ∈ [Marker.delayed, .evaluationOnly, .indexHole, .exceededTerm]
  | assignment .. => False
  | _ => True

def AllPlannable (c : PlanConfig) : List Query → Prop
  | [] => True
  | q :: qs => IsPlannable c q ∧ AllPlannable c qs

end

theorem allPlannable_iff {qs : List Query} : AllPlannable c qs ↔ ∀ q ∈ qs, q.IsPlannable c := by
  induction qs with
  | nil => simp [AllPlannable]
  | cons q qs ih => simp [AllPlannable, ih]

theorem compositional_isPlannable : Compositional (IsPlannable c) where
  and_iff _ := by rw [IsPlannable, allPlannable_iff]
  or_iff _ := by rw [IsPlannable, allPlannable_iff]
  marked _ _ h := h
  not _ h := h

mutual

theorem isTermwise_of_isPlannable : ∀ q : Query, q.IsPlannable c → q.isTermwise = Bool.true
  | equality .., _ => rfl
  | range .., _ => rfl
  | compare .., _ => rfl
  | regex .., _ => rfl
  | function .., _ => rfl
  | not _, _ => rfl
  | true, _ => rfl
  | false, _ => rfl
  | and cs, h => eachTermwise_of_allPlannable cs h.2
  | or cs, h => eachTermwise_of_allPlannable cs h.2
  | marked m _, h => by
    rw [IsPlannable] at h
    cases m <;> first | rfl | simp at h

theorem eachTermwise_of_allPlannable : ∀ qs : List Query, AllPlannable c qs →
    eachTermwise qs = Bool.true
  | [], _ => rfl
  | q :: qs, h => by
    rw [eachTermwise, isTermwise_of_isPlannable q h.1, eachTermwise_of_allPlannable qs h.2]
    rfl

end

end Query

namespace Lookup

variable {c : PlanConfig} {terms : Place → String → String → Reading} {w : World}

theorem isSound_conditionReading {q : Query} {field : String}
    (h : Query.isUnfielded field = false) : (conditionReading q field).IsSound w q := by
  rw [conditionReading, h]
  exact fun _ _ => rfl

theorem isSound_equalityReading {term : String → Reading} {field : String}
    {literal : Option String} (hterm : ∀ value, LooksUp c field →
      (term value).IsSound w (.equals field value))
    (hq : (Query.equality field literal).IsPlannable c) :
    (equalityReading c term field literal).IsSound w (.equality field literal) := by
  obtain ⟨hfield, hknown⟩ := hq
  unfold equalityReading
  rw [hfield, hknown]
  cases literal with
  | none => exact fun _ _ => rfl
  | some value =>
    simp only [Bool.false_eq_true, if_false, Bool.not_true]
    split
    · exact fun _ _ => rfl
    · next htype =>
      split
      · exact fun _ _ => rfl
      · next hindexed =>
        refine hterm value ⟨?_, htype⟩
        rw [Query.isLookedUp, hfield]
        simpa [PlanConfig.isIndexed] using hindexed

mutual

/-- Readings of queries are sound if those of the terms that are looked up are. -/
theorem isSound_readingOf (hterm : ∀ place field value, LooksUp c field →
      (terms place field value).IsSound w (.equals field value)) :
    ∀ (place : Place) (q : Query), q.IsPlannable c →
      (readingOf c terms place q).IsSound w q
  | place, .equality field literal, hq => by
    rw [readingOf]
    exact isSound_equalityReading (hterm place field) hq
  | _, .range .., hq => by rw [readingOf]; exact isSound_conditionReading hq
  | _, .compare .., hq => by rw [readingOf]; exact isSound_conditionReading hq
  | _, .regex .., hq => by rw [readingOf]; exact isSound_conditionReading hq
  | _, .function .., _ => fun _ _ => rfl
  | _, .not _, _ => fun _ _ => rfl
  | _, .true, _ => fun _ _ => rfl
  | _, .false, _ => fun _ _ => rfl
  | _, .marked .., _ => fun _ _ => rfl
  | place, .and cs, hq => by
    rw [readingOf]
    exact Reading.isSound_all (allSound_readingsOf hterm place 0 cs hq.2) hq.1
  | place, .or cs, hq => by
    rw [readingOf]
    exact Reading.isSound_any (allSound_readingsOf hterm place 0 cs hq.2)

theorem allSound_readingsOf (hterm : ∀ place field value, LooksUp c field →
      (terms place field value).IsSound w (.equals field value)) :
    ∀ (place : Place) (position : Nat) (qs : List Query), Query.AllPlannable c qs →
      Reading.AllSound w qs (readingsOf c terms place position qs)
  | _, _, [], _ => .nil
  | place, position, q :: qs, hq =>
    .cons (isSound_readingOf hterm (position :: place) q hq.1)
      (allSound_readingsOf hterm place (position + 1) qs hq.2)

end

/-! ### Terms -/

/-- A shard index that records documents: for every pair of an indexed field it has an entry
for the shard of the document that may be about it. -/
structure Records (c : PlanConfig) (docs : List Document) (t : Table) : Prop where
  valid : IsShardIndex t
  recorded : ∀ d ∈ docs, ∀ p ∈ d.pairs, c.isIndexed p.1 = true →
    ∃ datatype v l, (termKey p.2 p.1 d.shard datatype, v) ∈ t.toList ∧
      Wire.ofBytes v = .ok l ∧ Lists l d.uid

def worldOf (c : PlanConfig) (docs : List Document) (truth : Document → Query → Bool) : World where
  docs := (· ∈ docs)
  truth := truth
  shards := InDays c.firstDay c.lastDay

variable {docs : List Document} {truth : Document → Query → Bool} {t : Table}
variable {field value : String} {d : Document}

theorem shardOf_termKey (d : Document) (datatype : String) :
    shardOf (termKey value field d.shard datatype) = d.shard :=
  Text.before_append (Index.Layout.null_not_mem_ofDay d.day d.number) datatype

theorem inDays_shardOf_iff (c : PlanConfig) (k : Store.Key) :
    InDays c.firstDay c.lastDay (shardOf k) ↔ InDays c.firstDay c.lastDay k.qualifier :=
  Index.Layout.inDays_shardOf_iff (Index.Layout.null_not_mem_text c.first)
    (Index.Layout.null_not_mem_text c.last)

theorem contains_rangeOf_termKey (c : PlanConfig) (hd : InDays c.firstDay c.lastDay d.shard)
    (datatype : String) :
    (rangeOf c field value).contains (termKey value field d.shard datatype) = true := by
  refine Index.Layout.contains_termRange_iff.mpr ⟨rfl, rfl, ?_⟩
  rw [← inDays_shardOf_iff, shardOf_termKey]
  exact hd

theorem inDays_of_mem_termEntries {e : Store.Entry} (he : e ∈ termEntries c t field value) :
    InDays c.firstDay c.lastDay (shardOf e.1) := by
  have hc := (Bool.and_eq_true_iff.mp (List.mem_filter.mp he).2).1
  exact (inDays_shardOf_iff c e.1).mpr (Index.Layout.contains_termRange_iff.mp hc).2.2

theorem keeps_termCandidates (h : Records c docs t) (htypes : c.settings.lookup.datatypes = [])
    (hindexed : c.isIndexed field = true)
    (htruth : ∀ d ∈ docs, truth d (.equals field value) = d.shows (.equals field value)) :
    (worldOf c docs truth).Keeps (.equals field value) fun id =>
      Candidate.evidenceAt
        (termCandidates (.equals field value) (termEntries c t field value)) id := by
  have hat := (evidenceAt_termCandidates (q := .equals field value)
    (byShard_termEntries c t field value)).2
  constructor
  · intro id e he
    rw [hat] at he
    obtain ⟨b, hb, rfl⟩ := exists_entry_of_termEvidence? he
    exact inDays_of_mem_termEntries hb
  · intro d hd hq
    have hpair : (field, value) ∈ d.pairs := by
      have hdoc := htruth d hd.1
      rw [show truth d (.equals field value) = true from hq] at hdoc
      exact of_decide_eq_true hdoc.symm
    obtain ⟨datatype, v, l, hentry, hl, hlists⟩ := h.recorded d hd.1 _ hpair hindexed
    rw [hat]
    refine termEvidence?_of_lists ⟨l, ?_, hlists⟩
    refine List.mem_filterMap.mpr ⟨v, ?_, by rw [hl]; rfl⟩
    refine List.mem_map.mpr ⟨(termKey value field d.shard datatype, v), ?_, rfl⟩
    refine List.mem_filter.mpr ⟨List.mem_filter.mpr ⟨hentry, ?_⟩, ?_⟩
    · rw [htypes, contains_rangeOf_termKey c hd.2]
      rfl
    · exact decide_eq_true (shardOf_termKey d datatype)
  · intro d hd e he
    rw [hat] at he
    rw [query_of_termEvidence? rfl he]

theorem isSound_listed {cs : List Candidate} {q : Query}
    (h : w.Keeps q (Candidate.evidenceAt cs ·)) : (Reading.listed cs).IsSound w q := by
  cases cs with
  | nil =>
    intro d hd
    rw [← Bool.not_eq_true]
    intro hq
    obtain ⟨e, he, -⟩ := h.complete d hd hq
    cases he
  | cons k cs =>
    refine ⟨⟨k.shard, h.known k.shard k.evidence ?_⟩, h⟩
    rw [Candidate.evidenceAt_cons, if_pos rfl]

/-! ### Queries -/

variable {x : LookupContext} {q : Query}

def Agrees (c : PlanConfig) (docs : List Document) (truth : Document → Query → Bool) : Prop :=
  ∀ d ∈ docs, ∀ field value, LooksUp c field →
    truth d (.equals field value) = d.shows (.equals field value)

theorem isIndexed_of_looksUp (h : LooksUp c field) : c.isIndexed field = true :=
  (Bool.and_eq_true_iff.mp h.1).1

/-- The stream of a query at a place has a sound reading, unless a worker is lost. Scans of
terms may fail, each on its own. -/
theorem exists_isSound_lookUp (hindex : Records x.config docs t)
    (hscan : ∀ place field value, Sees x place (rangeOf x.config field value) t ∨
      FailsFirst x place field value)
    (htypes : x.config.settings.lookup.datatypes = []) (htruth : Agrees x.config docs truth)
    (place : Place) (hflat : q.IsFlat) (hq : q.IsPlannable x.config) :
    ∃ r, r.IsSound (worldOf x.config docs truth) q ∧
      Stream.Yields (canHold (batchSize x) = false) (lookUp x place q) r := by
  have hterm : ∀ place field value, ∃ r : Reading,
      Stream.Yields (canHold (batchSize x) = false)
        (term x place (.equals field value) field value).await r ∧
      (LooksUp x.config field → r.IsSound (worldOf x.config docs truth) (.equals field value)) := by
    intro place field value
    rcases hscan place field value with hsees | hfails
    · exact ⟨_, yields_term hsees hindex.valid, fun hf => isSound_listed
        (keeps_termCandidates hindex htypes (isIndexed_of_looksUp hf)
          fun d hd => htruth d hd field value hf)⟩
    · exact ⟨_, yields_term_of_failsFirst hfails, fun _ _ _ => rfl⟩
  choose terms hyields hsound using hterm
  exact ⟨_, isSound_readingOf hsound place _ hq,
    yields_lookUp (fun place field value _ => hyields place field value) place hflat
      (Query.isTermwise_of_isPlannable _ hq)⟩

theorem exists_isSound_rootOf (hindex : Records x.config docs t)
    (hscan : ∀ place field value, Sees x place (rangeOf x.config field value) t ∨
      FailsFirst x place field value)
    (htypes : x.config.settings.lookup.datatypes = []) (htruth : Agrees x.config docs truth)
    (hq : q.IsPlannable x.config) :
    ∃ r, r.IsSound (worldOf x.config docs truth) q.flatten ∧
      Stream.Yields (canHold (batchSize x) = false) (rootOf x q.flatten) r :=
  exists_isSound_lookUp hindex hscan htypes htruth [] (Query.isFlat_flatten q)
    (Query.compositional_isPlannable.flatten q hq)

end Lookup

end ShardedSearch
