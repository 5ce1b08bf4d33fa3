import ShardedSearch.Proofs.Lookup.Making

/-! # Readings of queries

The reading of a query that the index looks up term by term, and the streams that have
it. Each term has a reading of its own, given by the look-up at its place.
-/

namespace ShardedSearch

open Merge (Reading Stream)
open Merge.Stream (Makes Yields Realises)

namespace Query

mutual

/-- Whether every clause is looked up as a single term, deferred as a whole or joined: there
are no hints, no intervals, no listed shards and nothing is dropped. -/
def isTermwise : Query → Bool
  | and cs => eachTermwise cs
  | or cs => eachTermwise cs
  | marked m _ =>
    m = .delayed || m = .evaluationOnly || m = .indexHole || m = .exceededTerm
  | assignment .. => Bool.false
  | _ => Bool.true

def eachTermwise : List Query → Bool
  | [] => Bool.true
  | c :: cs => isTermwise c && eachTermwise cs

end

theorem eachTermwise_iff {cs : List Query} :
    eachTermwise cs = Bool.true ↔ ∀ c ∈ cs, c.isTermwise = Bool.true := by
  induction cs with
  | nil => simp [eachTermwise]
  | cons c cs ih => simp [eachTermwise, ih]

theorem isTermwise_join {build : List Query → Query} {cs : List Query}
    (hbuild : ∀ cs, (build cs).isTermwise = eachTermwise cs)
    (h : ∀ c ∈ cs, c.isTermwise = Bool.true) : (join build cs).isTermwise = Bool.true := by
  by_cases hl : cs.length = 1
  · obtain ⟨c, rfl⟩ := List.length_eq_one_iff.mp hl
    exact h c List.mem_cons_self
  · rw [join_of_length_ne_one hl, hbuild]
    exact eachTermwise_iff.mpr h

theorem isTermwise_conjuncts {q : Query} (h : q.isTermwise = Bool.true) :
    ∀ c ∈ q.conjuncts, c.isTermwise = Bool.true := by
  cases q with
  | and cs => exact eachTermwise_iff.mp h
  | _ => exact List.forall_mem_singleton.mpr h

theorem isTermwise_disjuncts {q : Query} (h : q.isTermwise = Bool.true) :
    ∀ c ∈ q.disjuncts, c.isTermwise = Bool.true := by
  cases q with
  | or cs => exact eachTermwise_iff.mp h
  | _ => exact List.forall_mem_singleton.mpr h

mutual

theorem isTermwise_flatten : ∀ q : Query, q.isTermwise = Bool.true →
    q.flatten.isTermwise = Bool.true
  | and cs, h => by
    rw [flatten]
    refine isTermwise_join (fun _ => rfl) fun c hc => ?_
    obtain ⟨d, hd, hc⟩ := List.mem_flatMap.mp hc
    exact isTermwise_conjuncts (isTermwise_of_mem_flattenAll cs h d hd) c hc
  | or cs, h => by
    rw [flatten]
    refine isTermwise_join (fun _ => rfl) fun c hc => ?_
    obtain ⟨d, hd, hc⟩ := List.mem_flatMap.mp hc
    exact isTermwise_disjuncts (isTermwise_of_mem_flattenAll cs h d hd) c hc
  | marked .., h => h
  | not _, _ => rfl
  | equality .., h => h
  | range .., h => h
  | compare .., h => h
  | regex .., h => h
  | function .., h => h
  | assignment .., h => h
  | true, h => h
  | false, h => h

theorem isTermwise_of_mem_flattenAll : ∀ cs : List Query, eachTermwise cs = Bool.true →
    ∀ c ∈ flattenAll cs, c.isTermwise = Bool.true
  | [], _ => List.forall_mem_nil _
  | c :: cs, h => by
    rw [eachTermwise, Bool.and_eq_true] at h
    rw [flattenAll]
    exact List.forall_mem_cons.mpr
      ⟨isTermwise_flatten c h.1, isTermwise_of_mem_flattenAll cs h.2⟩

end

end Query

namespace Lookup

def conditionReading (q : Query) (field : String) : Reading :=
  if Query.isUnfielded field then .absent else .delayed q

theorem context_conditionReading (q : Query) (field : String) :
    (conditionReading q field).context = .absent ∨
      (conditionReading q field).context = .delayed := by
  unfold conditionReading
  split
  · exact .inl rfl
  · exact .inr rfl

def equalityReading (c : PlanConfig) (term : String → Reading) (field : String)
    (literal : Option String) : Reading :=
  if Query.isUnfielded field then .absent
  else match literal with
    | none => .delayed (.equality field none)
    | some value =>
      if field = Query.datatypeField then .delayed (.equals field value)
      else if !c.isKnown field then .absent
      else if !c.isIndexed field then .delayed (.equals field value)
      else term value

def LooksUp (c : PlanConfig) (field : String) : Prop :=
  Query.isLookedUp c.indexed field = true ∧ field ≠ Query.datatypeField

instance (c : PlanConfig) (field : String) : Decidable (LooksUp c field) :=
  inferInstanceAs (Decidable (_ ∧ _))

theorem equalityReading_of_looksUp {c : PlanConfig} {field value : String} (h : LooksUp c field)
    (f : String → Reading) : equalityReading c f field (some value) = f value := by
  obtain ⟨hlooked, htype⟩ := h
  rw [Query.isLookedUp, Bool.and_eq_true, Bool.not_eq_true'] at hlooked
  have hknown : c.isKnown field = true := by
    rw [PlanConfig.isKnown, hlooked.1, Bool.or_true]
  have hindexed : c.isIndexed field = true := hlooked.1
  simp [equalityReading, hlooked.2, htype, hknown, hindexed]

theorem context_equalityReading {c : PlanConfig} {field : String} {literal : Option String}
    (h : ¬ (LooksUp c field ∧ literal.isSome = true)) (f : String → Reading) :
    (equalityReading c f field literal).context = .absent ∨
      (equalityReading c f field literal).context = .delayed := by
  unfold equalityReading
  split
  · exact .inl rfl
  next hfield =>
  cases literal with
  | none => exact .inr rfl
  | some value =>
    dsimp only
    split
    · exact .inr rfl
    next htype =>
    split
    · exact .inl rfl
    split
    · exact .inr rfl
    next hindexed =>
    refine absurd ⟨⟨?_, htype⟩, rfl⟩ h
    rw [Query.isLookedUp, Bool.and_eq_true]
    exact ⟨by simpa [PlanConfig.isIndexed] using hindexed, by simpa using hfield⟩

section

variable (c : PlanConfig) (terms : Place → String → String → Reading)

mutual

/-- The reading of a query, given those of the terms at their places. -/
def readingOf (place : Place) : Query → Reading
  | .equality field literal => equalityReading c (terms place field) field literal
  | .range field l u li ui => conditionReading (.range field l u li ui) field
  | .compare field op literal => conditionReading (.compare field op literal) field
  | .regex field pattern => conditionReading (.regex field pattern) field
  | .false => .absent
  | .and cs => .all (.and cs) (readingsOf place 0 cs)
  | .or cs => .any (.or cs) (readingsOf place 0 cs)
  | q => .delayed q

def readingsOf (place : Place) (position : Nat) : List Query → List Reading
  | [] => []
  | q :: qs => readingOf (position :: place) q :: readingsOf place (position + 1) qs

end

end

section

variable {c : PlanConfig} {terms : String → String → Reading}

mutual

/-- The place does not matter if all terms are read the same everywhere. -/
theorem readingOf_eq : ∀ (place : Place) (q : Query),
    readingOf c (fun _ => terms) place q = readingOf c (fun _ => terms) [] q
  | _, .equality .. => rfl
  | _, .range .. => rfl
  | _, .compare .. => rfl
  | _, .regex .. => rfl
  | _, .not _ => rfl
  | _, .function .. => rfl
  | _, .assignment .. => rfl
  | _, .marked .. => rfl
  | _, .true => rfl
  | _, .false => rfl
  | place, .and qs => by
    rw [readingOf, readingOf, readingsOf_eq place 0 qs, readingsOf_eq [] 0 qs]
  | place, .or qs => by
    rw [readingOf, readingOf, readingsOf_eq place 0 qs, readingsOf_eq [] 0 qs]

theorem readingsOf_eq : ∀ (place : Place) (position : Nat) (qs : List Query),
    readingsOf c (fun _ => terms) place position qs = qs.map (readingOf c (fun _ => terms) [])
  | _, _, [] => rfl
  | place, position, q :: qs => by
    rw [readingsOf, List.map_cons, readingOf_eq (position :: place) q,
      readingsOf_eq place (position + 1) qs]

end

end

variable {x : LookupContext} {terms : Place → String → String → Reading} {lost : Prop}

theorem makes_leaf {q : Query} {state : Merge.LeafState} {r : Reading}
    (hs : (leaf q state).context ≠ .skipped) (h : Yields lost (leaf q state).await r) :
    Makes lost (pure (leaf q state)) r := .inr ⟨_, rfl, hs, h⟩

theorem makes_absent {q : Query} : Makes lost (pure (leaf q .absent)) .absent :=
  makes_leaf (by simp [leaf, Stream.context, Merge.Leaf.context]) Merge.Stream.yields_absent

theorem makes_delayed {q : Query} (hq : q.IsFlat) :
    Makes lost (pure (leaf q .delayed)) (.delayed q) :=
  makes_leaf (by simp [leaf, Stream.context, Merge.Leaf.context]) (Merge.Stream.yields_delayed hq)

theorem makes_condition {q : Query} (field : String) (hq : q.IsFlat) :
    Makes lost (pure (condition q field)) (conditionReading q field) := by
  unfold condition conditionReading
  split
  · exact makes_absent
  · exact makes_delayed hq

/-- Every term has the reading it is given, unless a worker is lost. -/
def TermsYield (x : LookupContext) (lost : Prop) (terms : Place → String → String → Reading) :
    Prop :=
  ∀ place field value, x.config.isIndexed field = true →
    Yields lost (term x place (.equals field value) field value).await (terms place field value)

theorem makes_equality (hterm : TermsYield x lost terms) (place : Place) (field : String)
    (literal : Option String) :
    Makes lost (pure (equality x place (.equality field literal) field literal))
      (equalityReading x.config (terms place field) field literal) := by
  unfold equality equalityReading
  split
  · exact makes_absent
  cases literal with
  | none => exact makes_delayed trivial
  | some value =>
    simp only
    split
    · exact makes_delayed trivial
    split
    · exact makes_absent
    split
    · exact makes_delayed trivial
    · next hindexed =>
      apply makes_leaf (by simp [leaf, Stream.context, Merge.Leaf.context])
      exact hterm place field value (by simpa using hindexed)

theorem makes_marked {place : Place} {m : Marker} {cs : List Query}
    (hq : (Query.marked m cs).IsFlat) (hm : (Query.marked m cs).isTermwise = true) :
    Makes lost (liftM (marked x place (.marked m cs) m cs)) (.delayed (.marked m cs)) := by
  cases m with
  | delayed => exact makes_delayed hq
  | evaluationOnly => exact makes_delayed hq
  | indexHole => exact makes_delayed hq
  | exceededTerm => exact makes_delayed hq
  | _ => simp [Query.isTermwise] at hm

mutual

theorem makes_streamOf (hterm : TermsYield x lost terms) :
    ∀ (place : Place) (q : Query), q.IsFlat → q.isTermwise = true →
      Makes lost (streamOf x place q) (readingOf x.config terms place q)
  | place, .equality field literal, _, _ => by
    rw [streamOf, readingOf]
    exact makes_equality hterm place field literal
  | _, .range .., hq, _ => makes_condition _ hq
  | _, .compare .., hq, _ => makes_condition _ hq
  | _, .regex .., hq, _ => makes_condition _ hq
  | _, .not _, hq, _ => makes_delayed hq
  | _, .function .., hq, _ => makes_delayed hq
  | _, .true, hq, _ => makes_delayed hq
  | _, .false, _, _ => makes_absent
  | _, .assignment .., _, ht => by simp [Query.isTermwise] at ht
  | _, .marked .., hq, ht => by
    rw [streamOf, readingOf]
    · exact makes_marked hq ht
    all_goals simp
  | place, .and cs, hq, ht => by
    rw [streamOf, readingOf]
    have hcs := hq
    rw [Query.IsFlat] at hcs
    exact makes_bind (makes_streamsOf hterm place 0 cs hcs.2.2 ht) fun ss hr =>
      makes_conjunction hr hq
  | place, .or cs, hq, ht => by
    rw [streamOf, readingOf]
    have hcs := hq
    rw [Query.IsFlat] at hcs
    exact makes_bind (makes_streamsOf hterm place 0 cs hcs.2.2 ht) fun ss hr =>
      makes_disjunction hr hq

theorem makes_streamsOf (hterm : TermsYield x lost terms) :
    ∀ (place : Place) (position : Nat) (qs : List Query), Query.FlatAll qs →
      Query.eachTermwise qs = true →
      (lost ∧ ∃ f, streamsOf x place position qs = throw f) ∨
        ∃ ss, streamsOf x place position qs = pure ss ∧
          List.Forall₂ (fun s r => Yields lost s.await r) ss
            (readingsOf x.config terms place position qs)
  | _, _, [], _, _ => .inr ⟨[], rfl, .nil⟩
  | place, position, q :: qs, hq, ht => by
    rw [Query.eachTermwise, Bool.and_eq_true] at ht
    rw [streamsOf, readingsOf]
    rcases makes_streamOf hterm (position :: place) q hq.1 ht.1 with ⟨hl, f, hs⟩ | ⟨s, hs, hn, hr⟩
    · exact .inl ⟨hl, f, by rw [hs]; rfl⟩
    rcases makes_streamsOf hterm place (position + 1) qs hq.2 ht.2 with
      ⟨hl, f, hss⟩ | ⟨ss, hss, hrs⟩
    · exact .inl ⟨hl, f, by rw [hs, hss]; rfl⟩
    · refine .inr ⟨s :: ss, ?_, .cons hr hrs⟩
      rw [hs, hss, pure_bind, pure_bind, if_neg hn]

end

def lookUp (x : LookupContext) (place : Place) (q : Query) : Stream.Making Stream := do
  let s ← streamOf x place q
  s.await

/-- The stream of a query has its reading, unless a worker is lost. -/
theorem yields_lookUp (hterm : TermsYield x lost terms) (place : Place) {q : Query}
    (hq : q.IsFlat) (ht : q.isTermwise = true) :
    Yields lost (lookUp x place q) (readingOf x.config terms place q) := by
  rw [lookUp]
  rcases makes_streamOf hterm place q hq ht with ⟨hl, f, hs⟩ | ⟨s, hs, -, hr⟩
  · exact .inl ⟨hl, f, by rw [hs]; rfl⟩
  · rw [hs, pure_bind]
    exact hr

theorem yields_rootOf (hterm : TermsYield x lost terms) {q : Query} (hq : q.IsFlat)
    (ht : q.isTermwise = true) :
    Yields lost (rootOf x q) (readingOf x.config terms [] q) := yields_lookUp hterm [] hq ht

end Lookup

end ShardedSearch
