import ShardedSearch.Proofs.Calendar.Date
import ShardedSearch.Proofs.Index.ShardCounts
import ShardedSearch.Proofs.Lookup.Faults
import ShardedSearch.Proofs.Pattern.Shard
import ShardedSearch.Proofs.Plan.Run
import ShardedSearch.Proofs.Query.Clauses
import ShardedSearch.Proofs.Query.Depth

/-! # Refused queries

A clause with exceeded values lists every shard, which is of no use if evaluation cannot check
a field that only the index has. The leftmost such clause of a query refuses it, whatever the
look-ups of its other clauses come to.
-/

namespace ShardedSearch

open Merge (Stream)
open Merge.Stream (Making)

namespace Query

def IsExceeded (q : Query) : Prop :=
  q.marker? = some .exceededValue ∨ q.marker? = some .exceededOr

instance : DecidablePred IsExceeded := fun _ => inferInstanceAs (Decidable (_ ∨ _))

def Mentions (q : Query) (field : String) : Prop := ∃ c, IsNodeOf c q ∧ c.field? = some field

mutual

/-- The clauses that conjunctions and disjunctions join, from left to right. -/
def clauses : Query → List Query
  | and cs => clausesAll cs
  | or cs => clausesAll cs
  | q => [q]

def clausesAll : List Query → List Query
  | [] => []
  | c :: cs => clauses c ++ clausesAll cs

end

variable {q c clause : Query} {cs : List Query} {field : String}

theorem mem_clausesAll_iff : clause ∈ clausesAll cs ↔ ∃ c ∈ cs, clause ∈ clauses c := by
  induction cs with
  | nil => simp [clausesAll]
  | cons c cs ih => simp [clausesAll, ih]

theorem mem_clauses_of_isClauseOf (h : IsClauseOf clause q) (hclause : clause ∈ clauses clause) :
    clause ∈ clauses q := by
  induction h with
  | self => exact hclause
  | and hd _ ih => exact mem_clausesAll_iff.mpr ⟨_, hd, ih⟩
  | or hd _ ih => exact mem_clausesAll_iff.mpr ⟨_, hd, ih⟩

theorem mem_clauses_of_isExceeded (h : IsClauseOf clause q) (hexceeded : clause.IsExceeded) :
    clause ∈ clauses q := by
  refine mem_clauses_of_isClauseOf h ?_
  cases clause with
  | marked => exact List.mem_singleton_self _
  | _ => exact absurd hexceeded (by simp [IsExceeded, marker?])

theorem mentions_iff_children : q.Mentions field ↔
    q.field? = some field ∨ ∃ c ∈ q.children, c.Mentions field := by
  constructor
  · rintro ⟨c, hc, hfield⟩
    cases hc with
    | self => exact .inl hfield
    | child hd hc => exact .inr ⟨_, hd, c, hc, hfield⟩
  · rintro (h | ⟨d, hd, c, hc, hfield⟩)
    · exact ⟨q, .self, h⟩
    · exact ⟨c, .child hd hc, hfield⟩

theorem mem_fieldList_of_condition (hlist : q.fieldList = q.field?.toList)
    (hchildren : q.children = []) : field ∈ q.fieldList ↔ q.Mentions field := by
  rw [hlist, Option.mem_toList, mentions_iff_children, hchildren]
  simp

theorem mem_fieldList_of_node (hnone : q.field? = none)
    (hlist : field ∈ q.fieldList ↔ ∃ c ∈ q.children, c.Mentions field) :
    field ∈ q.fieldList ↔ q.Mentions field := by
  rw [hlist, mentions_iff_children, hnone]
  simp

mutual

theorem mem_fieldList_iff_mentions : ∀ q : Query, field ∈ q.fieldList ↔ q.Mentions field
  | and cs => mem_fieldList_of_node rfl (mem_fieldListAll_iff_mentions cs)
  | or cs => mem_fieldList_of_node rfl (mem_fieldListAll_iff_mentions cs)
  | marked _ cs => mem_fieldList_of_node rfl (mem_fieldListAll_iff_mentions cs)
  | not c => mem_fieldList_of_node rfl (by
    simpa [fieldList, children] using mem_fieldList_iff_mentions c)
  | equality .. => mem_fieldList_of_condition rfl rfl
  | range .. => mem_fieldList_of_condition rfl rfl
  | compare .. => mem_fieldList_of_condition rfl rfl
  | regex .. => mem_fieldList_of_condition rfl rfl
  | function .. => mem_fieldList_of_condition rfl rfl
  | assignment .. => mem_fieldList_of_condition rfl rfl
  | true => mem_fieldList_of_condition rfl rfl
  | false => mem_fieldList_of_condition rfl rfl

theorem mem_fieldListAll_iff_mentions : ∀ cs : List Query,
    field ∈ fieldListAll cs ↔ ∃ c ∈ cs, c.Mentions field
  | [] => by simp [fieldListAll]
  | c :: cs => by
    rw [fieldListAll, List.mem_append, mem_fieldList_iff_mentions c,
      mem_fieldListAll_iff_mentions cs, List.exists_mem_cons_iff]

end

end Query

namespace Lookup

open Query (IsClauseOf)

variable {x : LookupContext} {q clause : Query} {field : String}

/-! ### The clause that refuses -/

/-- Whether a field is the least one of a clause that only the index has. -/
structure IsLeastIndexOnly (c : PlanConfig) (clause : Query) (field : String) : Prop where
  mentions : clause.Mentions field
  indexOnly : c.isIndexOnly field = true
  least : ∀ f, clause.Mentions f → c.isIndexOnly f = true → ¬ f < field

/-- Whether a query is refused for a field: evaluation does not check exceeded values, and the
leftmost clause with exceeded values and a field that only the index has has this one first. -/
structure Refuses (c : PlanConfig) (q : Query) (field : String) : Prop where
  unevaluated : c.settings.lookup.evaluatesExceeded = false
  leftmost : ∃ before clause after, q.clauses = before ++ clause :: after ∧ clause.IsExceeded ∧
    IsLeastIndexOnly c clause field ∧
    ∀ d ∈ before, d.IsExceeded → ∀ f, d.Mentions f → c.isIndexOnly f = false

def refusedBy? (x : LookupContext) (clause : Query) : Option String :=
  if clause.IsExceeded ∧ x.config.settings.lookup.evaluatesExceeded = false then
    indexOnlyField? x clause
  else none

def refused? (x : LookupContext) (q : Query) : Option String := q.clauses.findSome? (refusedBy? x)

theorem mem_fields_iff_mentions : field ∈ q.fields.toList ↔ q.Mentions field :=
  SortedSet.mem_ofList.trans (Query.mem_fieldList_iff_mentions q)

theorem indexOnlyField?_eq_some_iff :
    indexOnlyField? x q = some field ↔ IsLeastIndexOnly x.config q field := by
  have hasc := q.fields.ascending
  rw [indexOnlyField?, List.find?_eq_some_iff_append]
  constructor
  · rintro ⟨honly, before, after, heq, hbefore⟩
    refine ⟨mem_fields_iff_mentions.mp (by simp [heq]), honly, fun f hf hfonly hlt => ?_⟩
    rw [heq, List.pairwise_append, List.pairwise_cons] at hasc
    have hf' := mem_fields_iff_mentions.mpr hf
    rw [heq, List.mem_append, List.mem_cons] at hf'
    rcases hf' with hf' | rfl | hf'
    · simpa [hfonly] using hbefore f hf'
    · exact String.lt_irrefl _ hlt
    · exact KeyOrder.not_lt_of_lt hlt (hasc.2.1.1 f hf')
  · rintro ⟨hmentions, honly, hleast⟩
    obtain ⟨before, after, heq⟩ := List.append_of_mem (mem_fields_iff_mentions.mpr hmentions)
    refine ⟨honly, before, after, heq, fun f hf => ?_⟩
    rw [heq, List.pairwise_append] at hasc
    have hlt := hasc.2.2 f hf field List.mem_cons_self
    rw [Bool.not_eq_true', Bool.eq_false_iff]
    exact fun hfonly => hleast f (mem_fields_iff_mentions.mp (by simp [heq, hf])) hfonly hlt

theorem indexOnlyField?_eq_none_iff :
    indexOnlyField? x q = none ↔ ∀ f, q.Mentions f → x.config.isIndexOnly f = false := by
  simp only [indexOnlyField?, List.find?_eq_none, Bool.not_eq_true, mem_fields_iff_mentions]

theorem refusedBy?_eq_some_iff : refusedBy? x clause = some field ↔
    (clause.IsExceeded ∧ x.config.settings.lookup.evaluatesExceeded = false) ∧
      IsLeastIndexOnly x.config clause field := by
  rw [refusedBy?, Option.ite_none_right_eq_some, indexOnlyField?_eq_some_iff]

theorem refused?_eq_some_iff : refused? x q = some field ↔ Refuses x.config q field := by
  rw [refused?, List.findSome?_eq_some_iff]
  constructor
  · rintro ⟨before, clause, after, heq, hclause, hbefore⟩
    obtain ⟨⟨hexceeded, huneval⟩, hleast⟩ := refusedBy?_eq_some_iff.mp hclause
    refine ⟨huneval, before, clause, after, heq, hexceeded, hleast, fun d hd hd' => ?_⟩
    have hnone := hbefore d hd
    rw [refusedBy?, if_pos ⟨hd', huneval⟩] at hnone
    exact indexOnlyField?_eq_none_iff.mp hnone
  · rintro ⟨huneval, before, clause, after, heq, hexceeded, hleast, hbefore⟩
    refine ⟨before, clause, after, heq,
      refusedBy?_eq_some_iff.mpr ⟨⟨hexceeded, huneval⟩, hleast⟩, fun d hd => ?_⟩
    rw [refusedBy?]
    split
    · next h => exact indexOnlyField?_eq_none_iff.mpr (hbefore d hd h.1)
    · rfl

theorem exists_refused? {f : String} (h : IsClauseOf clause q) (hexceeded : clause.IsExceeded)
    (huneval : x.config.settings.lookup.evaluatesExceeded = false) (hf : clause.Mentions f)
    (honly : x.config.isIndexOnly f = true) : ∃ field, refused? x q = some field := by
  rw [← Option.isSome_iff_exists, Option.isSome_iff_ne_none, refused?, ne_eq,
    List.findSome?_eq_none_iff]
  intro hnone
  have hclause := hnone clause (Query.mem_clauses_of_isExceeded h hexceeded)
  rw [refusedBy?, if_pos ⟨hexceeded, huneval⟩, indexOnlyField?_eq_none_iff] at hclause
  rw [hclause f hf] at honly
  cases honly

/-! ### Making the streams -/

/-- How making something ends: with the refusal if there is one, or for want of memory, or else
with what has a property. -/
inductive Ends {α : Type} (lost : Prop) (refused : Option String) (m : Making α)
    (P : α → Prop) : Prop
  | refused {field : String} : refused = some field →
      m.run.value = .error (.error (.unboundedField field)) → Ends lost refused m P
  | lost {f : Failure} : lost → (∀ field, f ≠ .error (.unboundedField field)) →
      m.run.value = .error f → Ends lost refused m P
  | made {a : α} : refused = none → m.run.value = .ok a → P a → Ends lost refused m P

section

variable {α β : Type} {lost : Prop} {r r' : Option String} {m : Making α} {f : α → Making β}
variable {P : α → Prop} {P' : β → Prop}

theorem Ends.bind (hm : Ends lost r m P) (hf : ∀ a, P a → Ends lost r' (f a) P') :
    Ends lost (r.or r') (m >>= f) P' := by
  cases hm with
  | refused hr hv =>
    refine .refused (by rw [hr, Option.some_or]) ?_
    rw [ExceptT.run_bind, Raising.value_bind, hv]
    rfl
  | lost hl hf hv =>
    refine .lost hl hf ?_
    rw [ExceptT.run_bind, Raising.value_bind, hv]
    rfl
  | @made a hr hv ha =>
    have hbind : (m >>= f).run.value = (f a).run.value := by
      rw [ExceptT.run_bind, Raising.value_bind, hv]
    cases hf a ha with
    | refused hr' hv' => exact .refused (by rw [hr, Option.none_or, hr']) (hbind.trans hv')
    | lost hl hf hv' => exact .lost hl hf (hbind.trans hv')
    | made hr' hv' hb => exact .made (by rw [hr, Option.none_or, hr']) (hbind.trans hv') hb

theorem Ends.of_pure {a : α} (ha : P a) : Ends lost none (pure a) P := .made rfl rfl ha

theorem Ends.of_raising {y : Raising α} (hy : P y.value) : Ends lost none (liftM y) P :=
  .made rfl rfl hy

end

/-- There is memory for a batch of look-ups and for the shards of each day. -/
structure HasRoom (x : LookupContext) : Prop where
  batch : canHold (batchSize x) = true
  days : ∀ day, x.counts.canList day = true

/-- A stream whose worker may only be lost for want of memory. -/
def IsSturdy (x : LookupContext) (s : Stream) : Prop := s.isLost = true → ¬ HasRoom x

variable {place : Place} {s : Stream} {ss : List Stream}

theorem isSturdy_of_not_isLost (h : s.isLost = false) : IsSturdy x s := fun hlost => by
  rw [h] at hlost
  cases hlost

theorem isSturdy_holding {scanner : Except Store.StoreError Store.Scanner} {l : Merge.Lookup}
    (hl : l.result ≠ .error .abandoned) :
    IsSturdy x (leaf q (.pending (holding (batchSize x) scanner l))) := by
  have hkept : (leaf q (.pending l)).isLost = false := by
    obtain ⟨raised, result⟩ := l
    cases result with
    | ok => rfl
    | error e => cases e <;> first | rfl | exact absurd rfl hl
  unfold holding
  split
  · split
    · exact isSturdy_of_not_isLost hkept
    · next hbatch => exact fun _ hroom => hbatch hroom.batch
  · exact isSturdy_of_not_isLost hkept

theorem isSturdy_term (field value : String) : IsSturdy x (term x place q field value) := by
  refine isSturdy_holding ?_
  rw [ofTerm]
  split <;> simp

theorem isSturdy_interval (field lower upper : String) (li ui : Bool) :
    IsSturdy x (interval x place q field lower upper li ui) := by
  rw [interval]
  dsimp only
  split
  · exact isSturdy_of_not_isLost rfl
  · refine isSturdy_holding ?_
    rw [ofInterval]
    split
    · split <;> simp
    · simp

theorem isSturdy_ofList (q : Query) (cs : List Candidate) :
    IsSturdy x (.leaf (.ofList q cs)) := by
  cases cs <;> exact isSturdy_of_not_isLost rfl

theorem isSturdy_equality (field : String) (literal : Option String) :
    IsSturdy x (equality x place q field literal) := by
  unfold equality
  repeat' split
  all_goals first | exact isSturdy_of_not_isLost rfl | exact isSturdy_term _ _

theorem isSturdy_condition (field : String) : IsSturdy x (condition q field) := by
  rw [condition]
  split <;> exact isSturdy_of_not_isLost rfl

/-! ### Clauses -/

abbrev EndsIn (x : LookupContext) (refused : Option String) (m : Making Stream) : Prop :=
  Ends (¬ HasRoom x) refused m (IsSturdy x)

theorem ends_enumeration {cs? : Option (List Candidate)} (h : cs? = none → ¬ HasRoom x) :
    EndsIn x none (liftM (enumeration q cs?)) := by
  cases cs? with
  | none => exact .lost (f := .unwound) (h rfl) nofun rfl
  | some cs => exact .of_pure (isSturdy_ofList q cs)

theorem not_hasRoom_of_hinted?_eq_none {hint : String} (h : hinted? q hint x.counts = none) :
    ¬ HasRoom x := fun hroom => by
  rw [hinted?, if_pos (List.all_eq_true.mpr fun day _ => hroom.days day)] at h
  cases h

theorem not_hasRoom_of_shardsOfDays?_eq_none {days : List String}
    (h : shardsOfDays? q days x.counts = none) : ¬ HasRoom x := fun hroom => by
  rw [shardsOfDays?, if_pos (List.all_eq_true.mpr fun day _ => hroom.days day)] at h
  cases h

theorem ends_exceeded (h : q.IsExceeded) : EndsIn x (refusedBy? x q) (liftM (exceeded x q)) := by
  have hrefused : refusedBy? x q = if x.config.settings.lookup.evaluatesExceeded then none
      else indexOnlyField? x q := by
    rw [refusedBy?]
    cases x.config.settings.lookup.evaluatesExceeded <;> simp [h]
  rw [hrefused, exceeded]
  generalize (if x.config.settings.lookup.evaluatesExceeded then none
    else indexOnlyField? x q) = refused
  cases refused with
  | some field => exact .refused rfl rfl
  | none => exact ends_enumeration not_hasRoom_of_shardsOfDays?_eq_none

theorem ends_marked (m : Marker) (cs : List Query) :
    EndsIn x (refusedBy? x (.marked m cs)) (liftM (marked x place (.marked m cs) m cs)) := by
  cases m with
  | exceededValue => exact ends_exceeded (.inl rfl)
  | exceededOr => exact ends_exceeded (.inr rfl)
  | boundedRange =>
    unfold marked
    dsimp only
    split
    · refine .of_pure ?_
      split
      · exact isSturdy_interval _ _ _ _ _
      · exact isSturdy_of_not_isLost rfl
    · exact .of_pure (isSturdy_of_not_isLost rfl)
  | _ => exact .of_pure (isSturdy_of_not_isLost rfl)

theorem ends_await (h : IsSturdy x s) : Ends (¬ HasRoom x) none s.await fun _ => True := by
  rw [Stream.await]
  split
  · next hlost =>
    refine .lost (f := .error .abandoned) (h hlost) (fun _ herror => ?_) rfl
    cases herror
  · exact .of_raising trivial

theorem ends_awaitAll (h : ∀ s ∈ ss, IsSturdy x s) :
    Ends (¬ HasRoom x) none (Stream.awaitAll ss) fun _ => True := by
  induction ss with
  | nil => exact .of_pure trivial
  | cons s ss ih =>
    have hrest := ih fun t ht => h t (List.mem_cons_of_mem s ht)
    rw [Stream.awaitAll]
    exact (ends_await (h s List.mem_cons_self)).bind fun _ _ =>
      hrest.bind fun _ _ => .of_pure trivial

/-- A pool gives up, or hangs, only on streams that take its workers down. -/
theorem ends_resolveAll (h : ∀ s ∈ ss, IsSturdy x s) :
    Ends (¬ HasRoom x) none (Stream.resolveAll (some (pool x)) ss) fun _ => True := by
  rw [Stream.resolveAll]
  split
  · next f hf =>
    obtain ⟨s, hs, hlost⟩ := Merge.Stream.exists_isLost_of_obstacle? (serves_pool x) hf
    refine .lost (h s hs hlost) (fun field hfield => ?_) rfl
    rw [hfield, Stream.obstacle?, if_pos (serves_pool x).accepting] at hf
    split at hf <;> cases hf
  · exact ends_awaitAll h

theorem ends_conjunction (h : ∀ s ∈ ss, IsSturdy x s) : EndsIn x none (conjunction x q ss) := by
  rw [conjunction_eq]
  exact (ends_resolveAll h).bind fun ts _ =>
    .of_raising (isSturdy_of_not_isLost (Merge.Stream.isLost_of_ne_pending (takesPart_joinAll q ts).1))

theorem ends_disjunction (h : ∀ s ∈ ss, IsSturdy x s) : EndsIn x none (disjunction x q ss) := by
  rw [disjunction_eq]
  exact (ends_resolveAll h).bind fun ts _ =>
    .of_raising (isSturdy_of_not_isLost (Merge.Stream.isLost_of_ne_pending (takesPart_joinAny q ts).1))

/-! ### Queries -/

mutual

/-- A refusal comes up whatever the siblings of its clause come to. -/
theorem ends_streamOf (x : LookupContext) (place : Place) :
    ∀ q : Query, EndsIn x (refused? x q) (streamOf x place q)
  | .equality .. => .of_pure (isSturdy_equality _ _)
  | .range .. => .of_pure (isSturdy_condition _)
  | .compare .. => .of_pure (isSturdy_condition _)
  | .regex .. => .of_pure (isSturdy_condition _)
  | .not _ => .of_pure (isSturdy_of_not_isLost rfl)
  | .function .. => .of_pure (isSturdy_of_not_isLost rfl)
  | .true => .of_pure (isSturdy_of_not_isLost rfl)
  | .false => .of_pure (isSturdy_of_not_isLost rfl)
  | .assignment name value => by
    have hnone : refused? x (.assignment name value) = none := rfl
    rw [hnone, streamOf]
    split
    · exact ends_enumeration not_hasRoom_of_hinted?_eq_none
    · exact .of_pure (isSturdy_of_not_isLost rfl)
  | .marked m cs => by
    have hclauses : refused? x (.marked m cs) = refusedBy? x (.marked m cs) := by
      simp [refused?, Query.clauses]
    rw [hclauses]
    exact ends_marked m cs
  | .and cs => by
    have h := (ends_streamsOf x place 0 cs).bind fun ss hss => ends_conjunction (q := .and cs) hss
    rwa [Option.or_none] at h
  | .or cs => by
    have h := (ends_streamsOf x place 0 cs).bind fun ss hss => ends_disjunction (q := .or cs) hss
    rwa [Option.or_none] at h

theorem ends_streamsOf (x : LookupContext) (place : Place) (position : Nat) :
    ∀ qs : List Query, Ends (¬ HasRoom x)
      ((Query.clausesAll qs).findSome? (refusedBy? x)) (streamsOf x place position qs)
      fun ss => ∀ s ∈ ss, IsSturdy x s
  | [] => .of_pure (by simp)
  | q :: qs => by
    have h := (ends_streamOf x (position :: place) q).bind fun s hs =>
      (ends_streamsOf x place (position + 1) qs).bind fun ss hss =>
        Ends.of_pure (a := if s.context = .skipped then ss else s :: ss)
          (P := fun ss => ∀ s ∈ ss, IsSturdy x s) (by
          split
          · exact hss
          · exact List.forall_mem_cons.mpr ⟨hs, hss⟩)
    rw [Option.or_none] at h
    rw [Query.clausesAll, List.findSome?_append]
    exact h

end

theorem ends_rootOf (x : LookupContext) (q : Query) :
    Ends (¬ HasRoom x) (refused? x q) (rootOf x q) fun _ => True := by
  have h := (ends_streamOf x [] q).bind fun _ hs => ends_await hs
  rwa [Option.or_none] at h

end Lookup

namespace PlanRun

open Index (ShardCounts)
open Lookup (IsLeastIndexOnly Refuses batchSize canHold rootOf)
open Query (IsClauseOf)

variable {x : LookupContext} {q : Query}

theorem start_of_root_error {f : Failure}
    (hdepth : q.flatten.depth ≤ x.config.settings.lookup.maxDepth)
    (h : (rootOf x q.flatten).run.value = .error f) : start x q = .error f := by
  rw [start, Query.prepare_of_depth_le hdepth]
  simp only [Except.mapError, bind, Except.bind, h]

theorem start_of_root_ok {root : Stream}
    (hdepth : q.flatten.depth ≤ x.config.settings.lookup.maxDepth)
    (h : (rootOf x q.flatten).run.value = .ok root) : ∃ r, start x q = .ok r := by
  rw [start, Query.prepare_of_depth_le hdepth]
  simp only [Except.mapError, bind, Except.bind, h]
  exact ⟨_, rfl⟩

/-- Evaluation cannot check exceeded values of a field that only the index has. -/
def indexOnlyContext (batchSize : Nat)
    (scannerAt : Place → Except Store.StoreError Store.Scanner) : LookupContext where
  config := ⟨{ lookup := { batchSize, evaluatesExceeded := false } }, .empty, .small, .small,
    Calendar.Date.le_refl _, .ofList ["A", "B"], .ofList ["B"], .empty, .shard⟩
  counts := .ofList [("20240111", 2)]
  scannerAt

def failingContext : LookupContext := indexOnlyContext 1 fun _ => .error (.unavailable "shardIndex")

/-- All scans are of an empty table, with batches that there is no memory for. -/
def greedyContext : LookupContext :=
  indexOnlyContext (2 ^ 64 - 1) fun _ => .ok (.ofTable "shardIndex" .empty fun _ _ => none)

def exceededB : Query := .marked .exceededValue [.equals "B" "1"]

def refusedQuery : Query := .and [.or [.equals "A" "1", .regex "C" (some "x")], exceededB]

theorem isClauseOf_exceededB : IsClauseOf exceededB refusedQuery :=
  .and (List.mem_cons_of_mem _ List.mem_cons_self) .self

theorem mentions_exceededB : exceededB.Mentions "B" :=
  ⟨.equals "B" "1", .child List.mem_cons_self .self, rfl⟩

-- of two look-ups the one that is still queued waits for a worker that is gone
example : start { greedyContext with config.settings.lookup.threads := 1 }
    (.and [.or [.equals "A" "1", .equals "A" "2"], exceededB]) = .error .stuck :=
  start_of_root_error (by decide) rfl

-- a hint lists its days before the clause is met
example : start { failingContext with counts := .ofList [("20240111", 2 ^ 64 - 1)] }
    (.and [.assignment Query.hintName "20240111", exceededB]) = .error .unwound :=
  start_of_root_error (by decide) rfl

end PlanRun

end ShardedSearch
