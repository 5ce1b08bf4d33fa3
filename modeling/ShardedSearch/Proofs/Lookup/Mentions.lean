import ShardedSearch.Proofs.Candidate.Grouping
import ShardedSearch.Proofs.Lookup.Parts
import ShardedSearch.Proofs.Lookup.Pointwise
import ShardedSearch.Proofs.Lookup.Reordering
import ShardedSearch.Proofs.Lookup.Totals
import ShardedSearch.Proofs.Query.Text

/-! # Terms behind evidence

The counts of evidence are those of the terms in the clauses that it comes from, each added up
as often as it is written there. Clauses that the index does not answer have no part in them.
-/

namespace ShardedSearch

open Candidate
open Merge (Reading Stream)
open Merge.Stream (exists_of_bind)
open Store (Table)

/-! ### Counts of terms with repeats -/

namespace Counts

theorem foldl_merge_append (cs ds : List Counts) :
    (cs ++ ds).foldl merge .empty = (cs.foldl merge .empty).merge (ds.foldl merge .empty) := by
  simpa using (foldl_merge_flatten [cs, ds] .empty).symm

theorem foldl_merge_cons (c : Counts) (cs : List Counts) :
    (c :: cs).foldl merge .empty = c.merge (cs.foldl merge .empty) := by
  simpa using foldl_merge_append [c] cs

theorem merge_left_comm (b c d : Counts) : b.merge (c.merge d) = c.merge (b.merge d) :=
  calc
    b.merge (c.merge d) = (b.merge c).merge d := (Std.Associative.assoc b c d).symm
    _ = (c.merge b).merge d := congrArg (merge · d) (Std.Commutative.comm b c)
    _ = c.merge (b.merge d) := Std.Associative.assoc c b d

variable (n : String → String → Nat) {field value text : String} {ts : List (String × String)}

/-- The counts of terms, added up as often as they are listed. -/
def ofTerms (ts : List (String × String)) : Counts :=
  (ts.map fun t => single (.equals t.1 t.2) (n t.1 t.2)).foldl merge .empty

theorem ofTerms_append (ts us : List (String × String)) :
    ofTerms n (ts ++ us) = (ofTerms n ts).merge (ofTerms n us) := by
  rw [ofTerms, List.map_append, foldl_merge_append]
  rfl

theorem ofTerms_singleton (field value : String) :
    ofTerms n [(field, value)] = single (.equals field value) (n field value) :=
  merge_empty_left _

theorem ofTerms_cons (t : String × String) (ts : List (String × String)) :
    ofTerms n (t :: ts) = (single (.equals t.1 t.2) (n t.1 t.2)).merge (ofTerms n ts) :=
  foldl_merge_cons ..

theorem get?_single (q : Query) (m : Nat) :
    (single q m).terms.get? text = if text = q.text then some m else none :=
  SortedMap.get?_insert

theorem get?_ofTerms (hn : ∀ field value, n field value ≤ maxCount) :
    (ofTerms n ts).terms.get? (Query.equals field value).text =
      if (field, value) ∈ ts then some (min (ts.count (field, value) * n field value) maxCount)
      else none := by
  induction ts with
  | nil => rfl
  | cons t ts ih =>
    rw [ofTerms_cons, merge, SortedMap.get?_mergeWith, ih, get?_single]
    by_cases ht : t = (field, value)
    · subst ht
      rw [if_pos rfl, if_pos List.mem_cons_self, List.count_cons_self, Nat.succ_mul]
      dsimp only
      have hle := hn field value
      split
      · rw [Option.merge_some_some, Option.some.injEq, addCounts]
        omega
      · next hmem =>
        rw [Option.merge_none_right, List.count_eq_zero.mpr hmem, Option.some.injEq]
        omega
    · have htext : (Query.equals field value).text ≠ (Query.equals t.1 t.2).text := fun h =>
        ht (Prod.ext_iff.mpr ⟨(Query.text_equals_injective h).1.symm,
          (Query.text_equals_injective h).2.symm⟩)
      rw [if_neg htext, Option.merge_none_left, List.count_cons_of_ne ht]
      refine if_congr ?_ rfl rfl
      rw [List.mem_cons, or_iff_right fun h => ht h.symm]

theorem exists_of_get?_ofTerms {m : Nat} (h : (ofTerms n ts).terms.get? text = some m) :
    ∃ t ∈ ts, text = (Query.equals t.1 t.2).text := by
  induction ts with
  | nil => cases h
  | cons t ts ih =>
    rw [ofTerms_cons, merge, SortedMap.get?_mergeWith, get?_single] at h
    by_cases ht : text = (Query.equals t.1 t.2).text
    · exact ⟨t, List.mem_cons_self, ht⟩
    · rw [if_neg ht, Option.merge_none_left] at h
      obtain ⟨u, hu, htext⟩ := ih h
      exact ⟨u, List.mem_cons_of_mem t hu, htext⟩

end Counts

namespace Lookup

/-! ### Mentions -/

section

variable (c : PlanConfig) (t : Table) (id : ShardId)

/-- How many records of a shard an index has for a term, up to the greatest count. -/
def recordedCount (field value : String) : Nat :=
  totalCount (listsAt (termEntries c t field value) id)

def knownAt? (q : Query) : Option Evidence := (listedReading c t q).evidence?.bind (· id)

mutual

/-- The terms of the clauses that what the index says about a shard comes from, as often as they
are written there: of all clauses of a conjunction, and of those clauses of a disjunction that
the index answers with the shard. -/
def mentionsAt : Query → List (String × String)
  | .equality field (some value) => if LooksUp c field then [(field, value)] else []
  | .and qs => mentionsOfAll qs
  | .or qs => mentionsOfSome qs
  | _ => []

def mentionsOfAll : List Query → List (String × String)
  | [] => []
  | q :: qs => mentionsAt q ++ mentionsOfAll qs

def mentionsOfSome : List Query → List (String × String)
  | [] => []
  | q :: qs => (if (knownAt? c t id q).isSome then mentionsAt q else []) ++ mentionsOfSome qs

end

end

/-! ### Readings -/

section

variable {c : PlanConfig} {t : Table} {id : ShardId} {q : Query} {qs : List Query}

theorem filterMap_evidence? (c : PlanConfig) (t : Table) (id : ShardId) (qs : List Query) :
    ((qs.map (listedReading c t)).filterMap Reading.evidence?).filterMap (· id) =
      qs.filterMap (knownAt? c t id) := by
  rw [List.filterMap_filterMap, List.filterMap_map]
  rfl

/-- Whether what the index says about a shard for a query has the counts of the terms that are
mentioned there, and nothing is mentioned where all is deferred. A mixed conjunction has no
answer but that nothing is known. -/
structure Tallies (c : PlanConfig) (t : Table) (id : ShardId) (q : Query) : Prop where
  known : ∀ e, knownAt? c t id q = some e →
    e.counts = .ofTerms (recordedCount c t id) (mentionsAt c t id q)
  answer : ∀ p g, listedReading c t q = .mixed p g → (∀ qs, q ≠ .and qs) →
    (g id).counts = .ofTerms (recordedCount c t id) (mentionsAt c t id q)
  delayed : ∀ p, listedReading c t q = .delayed p → mentionsAt c t id q = []

theorem counts_some (h : ∀ q ∈ qs, Tallies c t id q) :
    ((qs.filterMap (knownAt? c t id)).map (·.counts)).foldl Counts.merge .empty =
      .ofTerms (recordedCount c t id) (mentionsOfSome c t id qs) := by
  induction qs with
  | nil => rfl
  | cons q qs ih =>
    obtain ⟨hq, hqs⟩ := List.forall_mem_cons.mp h
    rw [mentionsOfSome]
    cases hk : knownAt? c t id q with
    | none => rw [List.filterMap_cons_none hk, ih hqs, Option.isSome_none,
        if_neg Bool.false_ne_true, List.nil_append]
    | some e => rw [List.filterMap_cons_some hk, List.map_cons, Counts.foldl_merge_cons, ih hqs,
        Option.isSome_some, if_pos rfl, Counts.ofTerms_append, hq.known e hk]

theorem mentionsOfSome_eq_nil (h : qs.filterMap (knownAt? c t id) = []) :
    mentionsOfSome c t id qs = [] := by
  induction qs with
  | nil => rfl
  | cons q qs ih =>
    obtain ⟨hq, hqs⟩ := List.forall_mem_cons.mp (List.filterMap_eq_nil_iff.mp h)
    rw [mentionsOfSome, hq, ih (List.filterMap_eq_nil_iff.mpr hqs)]
    rfl

theorem tallies_or (h : ∀ q ∈ qs, Tallies c t id q) : Tallies c t id (.or qs) where
  known e he := by
    rw [knownAt?, listedReading_or] at he
    rw [Reading.eq_disj_of_any he, filterMap_evidence?]
    exact counts_some h
  answer p g hmixed _ := by
    rw [listedReading_or] at hmixed
    rw [Reading.answer_of_any hmixed, filterMap_evidence?]
    exact counts_some h
  delayed p hdelayed := by
    rw [listedReading_or] at hdelayed
    refine mentionsOfSome_eq_nil ?_
    rw [← filterMap_evidence?, Reading.evidence?_of_any_delayed hdelayed]
    rfl

theorem counts_all (h : ∀ q ∈ qs, Tallies c t id q) (hand : ∀ q ∈ qs, ∀ ps, q ≠ .and ps)
    (habsent : ∀ q ∈ qs, (listedReading c t q).context ≠ .absent)
    (hknown : ∀ q ∈ qs, ∀ f, listedReading c t q = .present f → (f id).isSome = true) :
    (((qs.filterMap (knownAt? c t id)).map (·.counts)).foldl Counts.merge .empty).merge
        (((((qs.map (listedReading c t)).filterMap Reading.answers?).map (· id)).map
          (·.counts)).foldl Counts.merge .empty) =
      .ofTerms (recordedCount c t id) (mentionsOfAll c t id qs) := by
  induction qs with
  | nil => exact Counts.merge_empty_left _
  | cons q qs ih =>
    rw [List.forall_mem_cons] at h hand habsent hknown
    have htail := ih h.2 hand.2 habsent.2 hknown.2
    rw [mentionsOfAll, Counts.ofTerms_append, ← htail]
    cases hq : listedReading c t q with
    | absent => exact absurd (by rw [hq]; rfl) habsent.1
    | delayed p =>
      rw [List.filterMap_cons_none (by rw [knownAt?, hq]; rfl), List.map_cons, hq,
        List.filterMap_cons_none (show (Reading.delayed p).answers? = none from rfl),
        h.1.delayed p hq]
      exact (Counts.merge_empty_left _).symm
    | present f =>
      obtain ⟨e, he⟩ := Option.isSome_iff_exists.mp (hknown.1 f hq)
      have hk : knownAt? c t id q = some e := by
        rw [knownAt?, hq]
        exact he
      rw [List.filterMap_cons_some hk, List.map_cons, Counts.foldl_merge_cons, List.map_cons, hq,
        List.filterMap_cons_none (show (Reading.present f).answers? = none from rfl),
        h.1.known e hk]
      exact Std.Associative.assoc ..
    | mixed p g =>
      rw [List.filterMap_cons_none (by rw [knownAt?, hq]; rfl), List.map_cons, hq,
        List.filterMap_cons_some (show (Reading.mixed p g).answers? = some g from rfl),
        List.map_cons, List.map_cons, Counts.foldl_merge_cons, h.1.answer p g hq hand.1]
      exact Counts.merge_left_comm ..

theorem tallies_and (h : ∀ q ∈ qs, Tallies c t id q) (hand : ∀ q ∈ qs, ∀ ps, q ≠ .and ps) :
    Tallies c t id (.and qs) where
  known e he := by
    rw [knownAt?, listedReading_and] at he
    obtain ⟨habsent, hsome, rfl⟩ := Reading.eq_conj_of_all he
    rw [filterMap_evidence?]
    change ((_ ++ _ : List Evidence).map (·.counts)).foldl Counts.merge .empty = _
    rw [List.map_append, Counts.foldl_merge_append]
    refine counts_all h hand (fun q hq => habsent _ (List.mem_map_of_mem hq)) fun q hq f hf =>
      hsome f ?_
    exact List.mem_filterMap.mpr ⟨_, List.mem_map_of_mem hq, by rw [hf]; rfl⟩
  answer _ _ _ hne := absurd rfl (hne qs)
  delayed p hdelayed := by
    rw [listedReading_and] at hdelayed
    have hall := List.forall_mem_map.mp (Reading.delayed_of_all_delayed hdelayed)
    clear hdelayed hand
    rw [mentionsAt]
    induction qs with
    | nil => rfl
    | cons q qs ih =>
      rw [List.forall_mem_cons] at h hall
      obtain ⟨d, hd⟩ := hall.1
      rw [mentionsOfAll, h.1.delayed d hd, ih h.2 hall.2]
      rfl

theorem tallies_leaf (hmentions : mentionsAt c t id q = [])
    (hq : (listedReading c t q).context = .absent ∨ (listedReading c t q).context = .delayed) :
    Tallies c t id q := by
  refine ⟨fun e he => ?_, fun p g hmixed _ => ?_, fun _ _ => hmentions⟩
  · rw [knownAt?] at he
    cases hr : listedReading c t q <;> rw [hr] at he hq <;>
      first | cases he | simp [Reading.context] at hq
  · rw [hmixed] at hq
    simp [Reading.context] at hq

theorem tallies_term {field value : String} (h : LooksUp c field) :
    Tallies c t id (.equals field value) := by
  have htells : Tells (termAt c t field value) (listedReading c t (.equals field value)) :=
    tells_listedReading (q := .equals field value) h
  refine ⟨fun e he => ?_, fun p g hmixed => ?_, fun p hdelayed => ?_⟩
  · have hat : termAt c t field value id = some e := by
      rw [knownAt?] at he
      cases hr : listedReading c t (.equals field value) with
      | present f =>
        rw [hr] at htells he
        exact (congrFun htells id).symm.trans he
      | _ => rw [hr] at he; cases he
    have hmentions : mentionsAt c t id (.equals field value) = [(field, value)] := if_pos h
    rw [hmentions, Counts.ofTerms_singleton]
    exact (totals_of_termEvidence? hat).counts
  · rw [hmixed] at htells
    exact htells.elim
  · rw [hdelayed] at htells
    exact htells.elim

theorem tallies_equality (field : String) (literal : Option String) :
    Tallies c t id (.equality field literal) := by
  by_cases hterm : LooksUp c field ∧ literal.isSome = true
  · obtain ⟨value, rfl⟩ := Option.isSome_iff_exists.mp hterm.2
    exact tallies_term hterm.1
  · refine tallies_leaf ?_ (context_equalityReading hterm _)
    cases literal with
    | none => rfl
    | some value => exact if_neg fun h => hterm ⟨h, rfl⟩

mutual

/-- The counts of what the index says for a flat query are those of the terms it mentions. -/
theorem tallies : ∀ q : Query, q.IsFlat → Tallies c t id q
  | .equality .., _ => tallies_equality ..
  | .range .., _ => tallies_leaf rfl (context_conditionReading ..)
  | .compare .., _ => tallies_leaf rfl (context_conditionReading ..)
  | .regex .., _ => tallies_leaf rfl (context_conditionReading ..)
  | .not _, _ => tallies_leaf rfl (.inr rfl)
  | .function .., _ => tallies_leaf rfl (.inr rfl)
  | .assignment .., _ => tallies_leaf rfl (.inr rfl)
  | .marked .., _ => tallies_leaf rfl (.inr rfl)
  | .true, _ => tallies_leaf rfl (.inr rfl)
  | .false, _ => tallies_leaf rfl (.inl rfl)
  | .and qs, h => by
    rw [Query.IsFlat] at h
    exact tallies_and (talliesAll qs h.2.2) fun q hq => Query.and_ne_of_conjuncts_eq (h.2.1 q hq)
  | .or qs, h => by
    rw [Query.IsFlat] at h
    exact tallies_or (talliesAll qs h.2.2)

theorem talliesAll : ∀ qs : List Query, Query.FlatAll qs → ∀ q ∈ qs, Tallies c t id q
  | [], _ => List.forall_mem_nil _
  | q :: qs, h => List.forall_mem_cons.mpr ⟨tallies q h.1, talliesAll qs h.2⟩

end

end

/-! ### Streams -/

section

variable {p : Planner} {t : Table} {q : Query} {qs : List Query} {s : Stream} {ts : List Stream}
variable {place : Place} {id : ShardId} {n : Nat}

theorem termsYield_of_hasIndex (hp : HasIndex p t) :
    TermsYield p.lookupContext (canHold (batchSize p.lookupContext) = false) fun _ field value =>
      .listed (termCandidates (.equals field value) (termEntries p.config t field value)) :=
  fun place _ _ _ => yields_term (sees_of_hasIndex hp place _) hp.valid

theorem realises_of_lookUp (hp : HasIndex p t) (hq : q.IsFlat) (ht : q.isTermwise = true)
    (h : (lookUp p.lookupContext place q).run.value = .ok s) :
    lookUp p.lookupContext place q = pure s ∧ s.Realises (listedReading p.config t q) := by
  rcases yields_lookUp (termsYield_of_hasIndex hp) place hq ht with ⟨-, f, hlost⟩ | ⟨s', hs', hr⟩
  · rw [hlost] at h
    cases h
  · rw [hs'] at h ⊢
    obtain rfl := Except.ok.inj h
    rw [readingOf_eq] at hr
    exact ⟨rfl, hr⟩

structure IsStreamOf (p : Planner) (q : Query) (s : Stream) : Prop where
  flat : q.IsFlat
  termwise : q.isTermwise = true
  lookUp : ∃ place, (lookUp p.lookupContext place q).run.value = .ok s

theorem IsStreamOf.realises (hp : HasIndex p t) (h : IsStreamOf p q s) :
    s.Realises (listedReading p.config t q) := by
  obtain ⟨place, hs⟩ := h.lookUp
  exact (realises_of_lookUp hp h.flat h.termwise hs).2

/-- Every clause takes part in a join if none is dropped. -/
theorem context_ne_skipped_of_streamOf (hp : HasIndex p t) (hq : q.IsFlat)
    (ht : q.isTermwise = true) (hs : (streamOf p.lookupContext place q).run.value = .ok s) :
    s.context ≠ .skipped := by
  rcases makes_streamOf (termsYield_of_hasIndex hp) place q hq ht with
    ⟨-, f, hlost⟩ | ⟨s', hs', hctx, -⟩
  · rw [hlost] at hs
    cases hs
  · rw [hs'] at hs
    obtain rfl := Except.ok.inj hs
    exact hctx

/-- A join is made of what its clauses come to, one by one. -/
theorem forall₂_of_partsOf (hp : HasIndex p t) (hq : Query.FlatAll qs)
    (ht : Query.eachTermwise qs = true)
    (h : (partsOf p.lookupContext place qs).run.value = .ok ts) :
    List.Forall₂ (IsStreamOf p) qs ts := by
  obtain ⟨ss, hss, hts⟩ := exists_of_bind h
  obtain ⟨all, hall, rfl⟩ := exists_of_streamsOf hss
  have hparts := Merge.Stream.forall₂_of_resolveAll hts
  clear h hss hts
  -- along the clauses, whose streams are all kept by the filter
  induction hall generalizing ts with
  | nil =>
    cases hparts
    exact .nil
  | @cons q s qs all hs _ ih =>
    rw [Query.eachTermwise, Bool.and_eq_true] at ht
    obtain ⟨place', hs⟩ := hs
    have hnot := context_ne_skipped_of_streamOf hp hq.1 ht.1 hs
    rw [List.filter_cons, if_pos (decide_eq_true hnot)] at hparts
    cases hparts with
    | cons hu hrest =>
      refine .cons ⟨hq.1, ht.1, place', ?_⟩ (ih hq.2 ht.2 hrest)
      rw [Lookup.lookUp, ExceptT.run_bind, Raising.value_bind, hs]
      exact hu

theorem forall₂_realises (hp : HasIndex p t) (h : List.Forall₂ (IsStreamOf p) qs ts) :
    List.Forall₂ Stream.Realises ts (qs.map (listedReading p.config t)) :=
  List.forall₂_map_right_iff.mpr (h.flip.imp fun _ _ hs => hs.realises hp)

/-- Whether candidates have the counts of the terms that a query mentions for their shards. -/
def CountsMentions (p : Planner) (t : Table) (q : Query) (cs : List Candidate) : Prop :=
  ∀ c ∈ cs, c.evidence.counts =
    .ofTerms (recordedCount p.config t c.shard) (mentionsAt p.config t c.shard q)

theorem emits_of_mixed_or (hp : HasIndex p t) (h : IsStreamOf p (.or qs) s)
    (hmixed : s.context = .mixed) : ∃ cs, s.Emits cs ∧ CountsMentions p t (.or qs) cs := by
  obtain ⟨hq, ht, place, hs⟩ := h
  rw [lookUp_or] at hs
  obtain ⟨ts, hts, hjoin⟩ := exists_of_bind hs
  have hflat := hq
  rw [Query.IsFlat] at hflat
  have hparts := forall₂_realises hp (forall₂_of_partsOf hp hflat.2.2 ht hts)
  obtain ⟨d, cs, hd, hcs, -, hat⟩ := Merge.Stream.emits_of_disjunction hparts (.or qs)
  rw [joinAny, hd, pure_bind] at hjoin
  obtain rfl := Except.ok.inj hjoin
  refine ⟨cs, ?_, fun c hc => ?_⟩
  · split at hmixed
    · cases hmixed
    · cases hmixed
    · exact hcs
  · have he := (evidenceAt_eq_some_iff hcs.isListing.ascending).mpr hc
    rw [hat] at he
    rw [Evidence.disj?_eq_some he, List.filterMap_map]
    refine Eq.trans ?_ (counts_some (talliesAll qs hflat.2.2))
    rw [← filterMap_evidence?]
    rfl

/-- The listings of the mixed clauses of a conjunction, of which no other clause has a part. -/
theorem exists_listings (hp : HasIndex p t) (h : List.Forall₂ (IsStreamOf p) qs ts)
    (hand : ∀ q ∈ qs, ∀ ps, q ≠ .and ps)
    (hts : ∀ s ∈ ts, s.context ≠ .present ∧ s.context ≠ .absent)
    (hn : Stream.heightOfAll ts ≤ n) :
    ∃ css, List.Forall₂ (Stream.EmitsWithin n) (ts.filter fun s => s.context = .mixed) css ∧
      ∀ id, (∀ cs ∈ css, (evidenceAt cs id).isSome = true) →
        ((css.filterMap (evidenceAt · id)).map (·.counts)).foldl Counts.merge .empty =
          .ofTerms (recordedCount p.config t id) (mentionsOfAll p.config t id qs) := by
  induction h with
  | nil => exact ⟨[], .nil, fun _ _ => rfl⟩
  | @cons q s qs ts hs _ ih =>
    rw [List.forall_mem_cons] at hand hts
    rw [Stream.heightOfAll] at hn
    obtain ⟨css, hcss, hcounts⟩ := ih hand.2 hts.2 (by omega)
    have hr := hs.realises hp
    have hctx := Stream.context_of_realises hr
    rw [List.filter_cons]
    cases hread : listedReading p.config t q with
    | absent => exact absurd (by rw [hctx, hread]; rfl) hts.1.2
    | present f => exact absurd (by rw [hctx, hread]; rfl) hts.1.1
    | delayed d =>
      rw [hread] at hctx
      rw [hctx, if_neg (by simp [Reading.context])]
      refine ⟨css, hcss, fun id hall => ?_⟩
      rw [mentionsOfAll, (tallies q hs.flat).delayed d hread, hcounts id hall]
      rfl
    | mixed d g =>
      -- in a flat conjunction only disjunctions are mixed
      have hmixed : s.context = .mixed := by rw [hctx, hread]; rfl
      obtain ⟨place, hs'⟩ := hs.lookUp
      obtain ⟨hpure, -⟩ := realises_of_lookUp hp hs.flat hs.termwise hs'
      obtain ⟨ps, rfl | rfl⟩ := exists_join_of_mixed hpure hmixed
      · exact absurd rfl (hand.1 ps)
      obtain ⟨cs, hcs, htallies⟩ := emits_of_mixed_or hp hs hmixed
      rw [if_pos (decide_eq_true hmixed)]
      refine ⟨cs :: css, .cons (hcs.within (by omega)) hcss, fun id hall => ?_⟩
      obtain ⟨hsome, hrest⟩ := List.forall_mem_cons.mp hall
      obtain ⟨e, he⟩ := Option.isSome_iff_exists.mp hsome
      have hmem := (evidenceAt_eq_some_iff hcs.isListing.ascending).mp he
      rw [List.filterMap_cons_some (f := (evidenceAt · id)) he, List.map_cons,
        Counts.foldl_merge_cons, hcounts id hrest, mentionsOfAll, Counts.ofTerms_append]
      exact congrArg (Counts.merge · _) (htallies _ hmem)

/-- A conjunction that mixed clauses drive lists what all of these have for a shard. -/
theorem emits_of_mixed_and (hp : HasIndex p t) (h : IsStreamOf p (.and qs) s)
    (hmixed : s.context = .mixed) : ∃ cs, s.Emits cs ∧ CountsMentions p t (.and qs) cs := by
  have hr := h.realises hp
  obtain ⟨hq, ht, place, hs⟩ := h
  rw [lookUp_and] at hs
  obtain ⟨ts, hts, hjoin⟩ := exists_of_bind hs
  have hflat := hq
  rw [Query.IsFlat] at hflat
  have hparts := forall₂_of_partsOf hp hflat.2.2 ht hts
  have hreadings := forall₂_realises hp hparts
  have hdriven : Stream.Driven ts := by
    refine Stream.driven_of_all (q := .and qs) hreadings ?_
    rw [← listedReading_and, ← Stream.context_of_realises hr, hmixed]
  obtain ⟨css, hcss, hcounts⟩ := exists_listings hp hparts
    (fun q hq => Query.and_ne_of_conjuncts_eq (hflat.2.1 q hq)) hdriven.unpositioned (Nat.le_refl _)
  obtain ⟨j, cs, hj, hctx, hcs, hat⟩ := Stream.emits_of_driven hreadings hdriven hcss (.and qs)
  rw [joinAll, hj, pure_bind, if_neg (by rw [hctx]; simp)] at hjoin
  obtain rfl := Except.ok.inj hjoin
  refine ⟨cs, hcs, fun c hc => ?_⟩
  have he := (evidenceAt_eq_some_iff hcs.isListing.ascending).mpr hc
  rw [hat] at he
  obtain ⟨hall, he, -⟩ := Evidence.conj?_eq_some he
  rw [he, List.filterMap_map, List.append_nil]
  exact hcounts c.shard (List.forall_mem_map.mp hall)

theorem emits_of_present (hp : HasIndex p t) (h : IsStreamOf p q s)
    (hpresent : s.context = .present) : ∃ cs, s.Emits cs ∧ CountsMentions p t q cs := by
  have hr := h.realises hp
  have hctx := Stream.context_of_realises hr
  cases hread : listedReading p.config t q with
  | present f =>
    rw [hread] at hr
    obtain ⟨-, cs, hcs, hat⟩ := hr
    refine ⟨cs, hcs, fun c hc => (tallies q h.flat).known _ ?_⟩
    rw [knownAt?, hread]
    exact (hat c.shard).symm.trans ((evidenceAt_eq_some_iff hcs.isListing.ascending).mpr hc)
  | _ =>
    rw [hread, hpresent] at hctx
    cases hctx

end

end Lookup

end ShardedSearch
