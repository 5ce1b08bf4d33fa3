import ShardedSearch.Proofs.Lookup.Lockstep
import ShardedSearch.Proofs.Lookup.Order
import ShardedSearch.Proofs.Lookup.Reading
import ShardedSearch.Proofs.Merge.Driving

/-! # Streams of parts

If the index has entries of shards only, and so have the clauses that enumerate shards, the
streams of a query and of its parts can be read, whether their scans return all entries or fail
at first. A join is then made of the streams of its parts, each looked up at its own place.
-/

namespace ShardedSearch

open Index (Layout.shardOf)
open Merge (Leaf LeafState Reading Source Stream)
open Merge.Stream (Driven Making Readable Realises Yields exists_of_bind)
open Store (Entry Range Scanner StoreError Table)

namespace Merge.Stream

variable {α β : Type} {P : α → Prop} {Q : β → Prop} {m : Making α} {a : α}
variable {s : Stream} {ss : List Stream} {r : Reading}

/-- Making something fails at once, or comes to what has a property without any error. -/
def Comes (m : Making α) (P : α → Prop) : Prop := (∃ e, m = throw e) ∨ ∃ a, m = pure a ∧ P a

theorem Comes.bind {f : α → Making β} (h : Comes m P) (hf : ∀ a, P a → Comes (f a) Q) :
    Comes (m >>= f) Q := by
  rcases h with ⟨e, rfl⟩ | ⟨a, rfl, ha⟩
  · exact .inl ⟨e, rfl⟩
  · rw [pure_bind]
    exact hf a ha

theorem comes_pure (h : P a) : Comes (pure a) P := .inr ⟨a, rfl, h⟩

theorem Comes.mono {P' : α → Prop} (h : Comes m P) (hP : ∀ a, P a → P' a) : Comes m P' :=
  h.imp_right fun ⟨a, hm, ha⟩ => ⟨a, hm, hP a ha⟩

theorem Comes.of_value (h : Comes m P) (hm : m.run.value = .ok a) : m = pure a ∧ P a := by
  rcases h with ⟨e, rfl⟩ | ⟨b, rfl, hb⟩
  · cases hm
  · obtain rfl : b = a := Except.ok.inj hm
    exact ⟨rfl, hb⟩

theorem Comes.of_eq_pure (h : Comes m P) (hm : m = pure a) : P a := (h.of_value (hm ▸ rfl)).2

theorem readable_of_realises (h : s.Realises r) (hr : r.context ≠ .mixed) : s.Readable :=
  ⟨⟨r, h⟩, fun hmixed => absurd ((context_of_realises h).symm.trans hmixed) hr⟩

theorem comes_of_yields {lost : Prop} {m : Making Stream} (h : Yields lost m r)
    (hr : r.context ≠ .mixed) : Comes m Readable := by
  rcases h with ⟨-, f, rfl⟩ | ⟨s, rfl, hs⟩
  · exact .inl ⟨f, rfl⟩
  · exact comes_pure (readable_of_realises hs hr)

theorem await_of_readable (h : s.Readable) : s.await = pure s := by
  obtain ⟨⟨r, hr⟩, -⟩ := h
  exact Lookup.await_of_realises hr

theorem context_ne_skipped_of_readable (h : s.Readable) : s.context ≠ .skipped := by
  obtain ⟨⟨r, hr⟩, -⟩ := h
  exact Lookup.context_ne_skipped hr

theorem comes_awaitAll (h : ∀ s ∈ ss, Comes s.await Readable) :
    Comes (awaitAll ss) fun ts => (∀ t ∈ ts, t.Readable) ∧
      ∀ t, t ∈ ts ↔ ∃ s ∈ ss, s.await = pure t := by
  induction ss with
  | nil => exact comes_pure ⟨by simp, by simp⟩
  | cons s ss ih =>
    rw [awaitAll]
    rcases h s List.mem_cons_self with ⟨e, hs⟩ | ⟨t, hs, ht⟩
    · exact .inl ⟨e, by rw [hs]; rfl⟩
    rw [hs]
    refine (ih fun s' hs' => h s' (List.mem_cons_of_mem s hs')).bind fun ts hts => ?_
    refine comes_pure ⟨List.forall_mem_cons.mpr ⟨ht, hts.1⟩, fun t' => ?_⟩
    rw [List.mem_cons, List.exists_mem_cons_iff, hts.2, hs]
    refine or_congr_left ⟨fun heq => heq ▸ rfl, fun heq => ?_⟩
    exact (Except.ok.inj (congrArg (·.run.value) heq)).symm

theorem comes_resolveAll (pool : Option WorkerPool) (h : ∀ s ∈ ss, Comes s.await Readable) :
    Comes (resolveAll pool ss) fun ts => (∀ t ∈ ts, t.Readable) ∧
      ∀ t, t ∈ ts ↔ ∃ s ∈ ss, s.await = pure t := by
  rw [resolveAll]
  split
  · exact .inl ⟨_, rfl⟩
  · exact comes_awaitAll h

end Merge.Stream

namespace Lookup

open Merge.Stream (Comes comes_pure)

variable {x : LookupContext} {place : Place} {q : Query} {t : Table} {field : String}

/-! ### Clauses -/

def enumerated (x : LookupContext) : Query → List ShardId
  | .assignment name value =>
    if name = Query.hintName then (hintedShards value x.counts).toList else []
  | .marked .exceededValue _ => x.config.days.flatMap x.counts.expand
  | .marked .exceededOr _ => x.config.days.flatMap x.counts.expand
  | _ => []

/-- Whether the clauses of a query enumerate shards of days only, and no days. -/
def EnumeratesShards (x : LookupContext) (q : Query) : Prop :=
  ∀ c, Query.IsClauseOf c q → ∀ id ∈ enumerated x c,
    Shard.IsDated id ∧ Shard.isDay id = false

/-- Whether every scan returns what the table has in its range, or fails before its first batch
is complete. -/
def ReturnsOrFails (x : LookupContext) (t : Table) : Prop :=
  ∀ place field range, Sees x place range t ∨
    ∃ e, (openScanner x place field range).bind (Batches.read (batchSize x) false) = .error e

theorem context_listed (cs : List Candidate) : (Reading.listed cs).context ≠ .mixed := by
  cases cs <;> simp [Reading.listed, Reading.context]

theorem readable_absent (q : Query) : (leaf q .absent).Readable :=
  Merge.Stream.readable_of_realises Merge.Stream.realises_absent (by simp [Reading.context])

theorem readable_delayed (hq : q.IsFlat) : (leaf q .delayed).Readable :=
  Merge.Stream.readable_of_realises (r := .delayed q) ⟨rfl, rfl, hq⟩ (by simp [Reading.context])

theorem comes_readable {s : Stream} (h : s.Readable) : Comes s.await Readable :=
  .inr ⟨s, Merge.Stream.await_of_readable h, h⟩

theorem comes_term (hscan : ReturnsOrFails x t) (ht : IsShardIndex t) {value : String} :
    Comes (term x place (.equals field value) field value).await Readable := by
  rcases hscan place field (rangeOf x.config field value) with hsees | hfails
  · exact Merge.Stream.comes_of_yields (yields_term hsees ht) (context_listed _)
  · exact Merge.Stream.comes_of_yields (yields_term_of_failsFirst hfails)
      (by simp [Reading.context])

theorem comes_holding {l : Merge.Lookup} {n : Nat} {s : Except StoreError Scanner}
    (h : Comes (leaf q (.pending l)).await Readable) :
    Comes (leaf q (.pending (holding n s l))).await Readable := by
  unfold holding
  split
  · split
    · exact h
    · exact .inl ⟨.error .abandoned, rfl⟩
  · exact h

theorem comes_found {cs : List Candidate} (h : Candidate.IsListing cs) :
    Comes (leaf q (.pending ⟨none, .ok (.ofList cs)⟩)).await Readable := by
  refine Merge.Stream.comes_of_yields (?_ : Yields False _ _) (context_listed cs)
  exact Merge.Stream.yields_ofList h

theorem comes_store (hq : q.IsFlat) (e : StoreError) :
    Comes (leaf q (.pending ⟨none, .error (.store e)⟩)).await Readable := by
  refine Merge.Stream.comes_of_yields (?_ : Yields False _ (.delayed q)) (by simp [Reading.context])
  exact Merge.Stream.yields_store hq e

theorem comes_interval (hscan : ReturnsOrFails x t) (ht : IsShardIndex t)
    (hq : q.disjuncts = [q]) (hflat : q.IsFlat) {lower upper : String} {li ui : Bool} :
    Comes (interval x place q field lower upper li ui).await Readable := by
  rw [interval]
  split
  · exact comes_readable (readable_absent q)
  refine comes_holding ?_
  rcases hscan place field (rowsBetween lower upper li ui) with hsees | ⟨e, hfails⟩
  · obtain ⟨s, hopen, hreturns⟩ :=
      @openScanner_of_sees x place field t (rowsBetween lower upper li ui) hsees
    have hread : (Except.ok s : Except StoreError Scanner).bind
        (Batches.read (batchSize x) false) = .ok ⟨_, none⟩ := Batches.read_of_returns hreturns
    have hmem : ∀ e ∈ entriesIn x.config t field (rowsBetween lower upper li ui), e ∈ t.toList :=
      fun e he => (List.mem_filter.mp he).1
    obtain ⟨found, hfound⟩ := exists_addEntries q x.config.firstDay x.config.lastDay .empty
      fun e he => (ht e (hmem e he)).2
    simp only [ofInterval, hopen, hread, hfound]
    exact comes_found (isListing_mergedCandidates ht hmem hq hflat hfound)
  · simp only [ofInterval, hfails]
    exact comes_store hflat e

/-! ### Enumerated shards -/

theorem readable_ofList {cs : List Candidate} (h : Candidate.IsListing cs) :
    (Stream.leaf (.ofList q cs)).Readable := by
  cases cs with
  | nil => exact readable_absent q
  | cons c cs =>
    exact Merge.Stream.readable_of_realises (r := .listed (c :: cs))
      ⟨rfl, c :: cs, ⟨h, rfl⟩, fun _ => rfl⟩ (context_listed _)

theorem readable_unknown {ids : List ShardId} (hflat : q.IsFlat) (hasc : ids.Pairwise (· < ·))
    (hids : ∀ id ∈ ids, Shard.isDay id = false) :
    (Stream.leaf (.ofList q (ids.map (unknownAt q)))).Readable := by
  refine readable_ofList ⟨List.pairwise_map.mpr hasc, fun c hc => ?_, fun c hc => ?_⟩
  · obtain ⟨id, hid, rfl⟩ := List.mem_map.mp hc
    exact hids id hid
  · obtain ⟨id, -, rfl⟩ := List.mem_map.mp hc
    exact hflat

theorem readable_exceeded (hflat : q.IsFlat)
    (hids : ∀ id ∈ x.config.days.flatMap x.counts.expand,
      Shard.IsDated id ∧ Shard.isDay id = false) {s : Stream} (hs : exceeded x q = .ok s) :
    s.Readable := by
  obtain rfl := eq_of_exceeded hs
  refine readable_unknown hflat ?_ fun id hid => (hids id hid).2
  refine (Calendar.Date.pairwise_expand_upTo fun id hid => .inl (hids id hid).1).imp_of_mem
    fun ha _ hfollow => ?_
  exact (Shard.precedes_iff.mp (hfollow (hids _ ha).1).2).1

/-! ### Joins -/

/-- A stream that takes no part, or can be read when it is looked up. -/
def Prepared (s : Stream) : Prop := s.context = .skipped ∨ Comes s.await Readable

theorem prepared_of_readable {s : Stream} (h : s.Readable) : Prepared s :=
  .inr (comes_readable h)

variable {ss ts : List Stream}

/-- A conjunction of streams that can be read can be read. If mixed streams drive it, it lists
what all of them list. -/
theorem exists_joinAll (h : ∀ t ∈ ts, t.Readable) (hq : q.IsFlat) :
    ∃ s, joinAll q ts = pure s ∧ s.Readable ∧ (Driven ts → s.context = .mixed ∧
      ∀ id, s.Lists id ↔ ∀ t ∈ ts, t.context = .mixed → t.Lists id) := by
  obtain ⟨j, hj, hreadable⟩ := Merge.Stream.readable_conjunction h hq
  rw [joinAll, hj, pure_bind]
  refine ⟨_, rfl, ?_, fun hdriven => ?_⟩
  · split
    · exact readable_absent q
    · exact hreadable
  · obtain ⟨j', hj', hmixed, -, hlists⟩ := Merge.Stream.conjunction_of_driven h hdriven q
    obtain rfl : j = j' := congrArg Raising.value (hj.symm.trans hj')
    rw [if_neg (by rw [hmixed]; simp)]
    exact ⟨hmixed, hlists⟩

/-- A disjunction of streams that can be read can be read. A mixed one lists what its present
streams list. -/
theorem exists_joinAny (h : ∀ t ∈ ts, t.Readable) (hq : q.IsFlat) :
    ∃ s, joinAny q ts = pure s ∧ s.Readable ∧ (s.context = .mixed →
      ∀ id, s.Lists id ↔ ∃ t ∈ ts, t.context = .present ∧ t.Lists id) := by
  obtain ⟨d, hd, hreadable, hlists⟩ := Merge.Stream.readable_disjunction h hq
  rw [joinAny, hd, pure_bind]
  refine ⟨_, rfl, ?_, fun hmixed => ?_⟩
  · split
    · exact readable_absent q
    · exact readable_delayed hq
    · next hnot => exact hreadable hnot
  · split at hmixed
    · cases hmixed
    · cases hmixed
    · exact hlists

theorem comes_conjunction (h : ∀ s ∈ ss, Comes s.await Readable) (hq : q.IsFlat) :
    Comes (conjunction x q ss) Prepared := by
  rw [conjunction_eq]
  refine (Merge.Stream.comes_resolveAll _ h).bind fun ts hts => ?_
  obtain ⟨s, hs, hreadable, -⟩ := exists_joinAll hts.1 hq
  exact .inr ⟨s, by rw [hs]; rfl, prepared_of_readable hreadable⟩

theorem comes_disjunction (h : ∀ s ∈ ss, Comes s.await Readable) (hq : q.IsFlat) :
    Comes (disjunction x q ss) Prepared := by
  rw [disjunction_eq]
  refine (Merge.Stream.comes_resolveAll _ h).bind fun ts hts => ?_
  obtain ⟨s, hs, hreadable, -⟩ := exists_joinAny hts.1 hq
  exact .inr ⟨s, by rw [hs]; rfl, prepared_of_readable hreadable⟩

/-! ### Queries -/

theorem comes_leaf {s : Stream} (h : s.Readable) : Comes (pure s) Prepared :=
  comes_pure (prepared_of_readable h)

theorem comes_skipped : Comes (pure (leaf q .skipped)) Prepared := comes_pure (.inl rfl)

theorem comes_condition (hq : q.IsFlat) : Comes (pure (condition q field)) Prepared := by
  unfold condition
  split
  · exact comes_leaf (readable_absent q)
  · exact comes_leaf (readable_delayed hq)

theorem comes_equality (hscan : ReturnsOrFails x t) (ht : IsShardIndex t)
    {literal : Option String} :
    Comes (pure (equality x place (.equality field literal) field literal)) Prepared := by
  unfold equality
  split
  · exact comes_leaf (readable_absent _)
  · split
    · exact comes_leaf (readable_delayed trivial)
    · split
      · exact comes_leaf (readable_delayed trivial)
      · split
        · exact comes_leaf (readable_absent _)
        · split
          · exact comes_leaf (readable_delayed trivial)
          · exact comes_pure (.inr (comes_term hscan ht))

theorem comes_assignment {name value : String}
    (h : ∀ id ∈ enumerated x (.assignment name value), Shard.isDay id = false) :
    Comes (streamOf x place (.assignment name value)) Prepared := by
  rw [streamOf]
  rw [enumerated] at h
  split
  · next hname =>
    rw [if_pos hname] at h
    cases hs : enumeration (.assignment name value)
        (hinted? (.assignment name value) value x.counts) with
    | error f => exact .inl ⟨f, rfl⟩
    | ok s =>
      obtain rfl := eq_of_hinted hs
      exact comes_leaf (readable_unknown trivial (hintedShards value x.counts).ascending h)
  · exact comes_skipped

theorem comes_marked (hscan : ReturnsOrFails x t) (ht : IsShardIndex t) {m : Marker}
    {cs : List Query} (hq : (Query.marked m cs).IsFlat)
    (h : ∀ id ∈ enumerated x (.marked m cs), Shard.IsDated id ∧ Shard.isDay id = false) :
    Comes (liftM (marked x place (.marked m cs) m cs)) Prepared := by
  have hexceeded : (∀ id ∈ x.config.days.flatMap x.counts.expand,
      Shard.IsDated id ∧ Shard.isDay id = false) →
      Comes (liftM (exceeded x (.marked m cs))) Prepared := by
    intro hids
    cases hs : exceeded x (.marked m cs) with
    | error e => exact .inl ⟨e, rfl⟩
    | ok s => exact comes_leaf (readable_exceeded hq hids hs)
  unfold marked
  split
  · exact comes_leaf (readable_delayed hq)
  · exact comes_leaf (readable_delayed hq)
  · exact comes_leaf (readable_delayed hq)
  · exact comes_leaf (readable_delayed hq)
  · exact comes_skipped
  · exact hexceeded h
  · exact hexceeded h
  · split
    · refine comes_pure ?_
      split
      · exact .inr (comes_interval hscan ht rfl hq)
      · exact prepared_of_readable (readable_delayed hq)
    · exact comes_leaf (readable_delayed hq)

def IsPart (place : Place) (position : Nat) (cs : List Query) (P : Place → Query → Prop) : Prop :=
  ∃ i c, cs[i]? = some c ∧ P ((position + i) :: place) c

theorem isPart_cons {position : Nat} {c : Query} {cs : List Query} {P : Place → Query → Prop} :
    IsPart place position (c :: cs) P ↔
      P (position :: place) c ∨ IsPart place (position + 1) cs P := by
  constructor
  · rintro ⟨i, d, hd, h⟩
    cases i with
    | zero =>
      obtain rfl := Option.some.inj hd
      exact .inl h
    | succ i => exact .inr ⟨i, d, hd, by rwa [Nat.add_right_comm, Nat.add_assoc]⟩
  · rintro (h | ⟨i, d, hd, h⟩)
    · exact ⟨0, c, rfl, h⟩
    · exact ⟨i + 1, d, hd, by rwa [Nat.add_right_comm, Nat.add_assoc] at h⟩

mutual

/-- The stream of a query can be read when it is looked up. -/
theorem comes_streamOf (hscan : ReturnsOrFails x t) (ht : IsShardIndex t) (place : Place)
    (q : Query) (hq : q.IsFlat) (h : EnumeratesShards x q) :
    Comes (streamOf x place q) Prepared := by
  match q with
  | .equality .. => exact comes_equality hscan ht
  | .range .. => exact comes_condition hq
  | .compare .. => exact comes_condition hq
  | .regex .. => exact comes_condition hq
  | .not _ => exact comes_leaf (readable_delayed hq)
  | .function .. => exact comes_leaf (readable_delayed hq)
  | .true => exact comes_leaf (readable_delayed hq)
  | .false => exact comes_leaf (readable_absent _)
  | .assignment .. => exact comes_assignment fun id hid => (h _ .self id hid).2
  | .marked .. => exact comes_marked hscan ht hq (h _ .self)
  | .and cs =>
    rw [streamOf]
    rw [Query.IsFlat] at hq
    refine (comes_streamsOf hscan ht place 0 cs hq.2.2 fun d hd c hc => ?_).bind fun ss hss => ?_
    · exact h c (.and hd hc)
    · exact comes_conjunction (fun s hs => (hss.1 s hs).2) (by rw [Query.IsFlat]; exact hq)
  | .or cs =>
    rw [streamOf]
    rw [Query.IsFlat] at hq
    refine (comes_streamsOf hscan ht place 0 cs hq.2.2 fun d hd c hc => ?_).bind fun ss hss => ?_
    · exact h c (.or hd hc)
    · exact comes_disjunction (fun s hs => (hss.1 s hs).2) (by rw [Query.IsFlat]; exact hq)

/-- So can those of siblings, and they are those of the siblings that take part. -/
theorem comes_streamsOf (hscan : ReturnsOrFails x t) (ht : IsShardIndex t) (place : Place)
    (position : Nat) (qs : List Query) (hq : Query.FlatAll qs)
    (h : ∀ q ∈ qs, EnumeratesShards x q) :
    Comes (streamsOf x place position qs) fun ss =>
      (∀ s ∈ ss, s.context ≠ .skipped ∧ Comes s.await Readable) ∧
      ∀ s, s ∈ ss ↔ s.context ≠ .skipped ∧
        IsPart place position qs fun place c => streamOf x place c = pure s := by
  match qs with
  | [] => exact comes_pure ⟨by simp, by simp [IsPart]⟩
  | q :: qs =>
    rw [streamsOf]
    have hhead := comes_streamOf hscan ht (position :: place) q hq.1 (h q List.mem_cons_self)
    rcases hhead with ⟨e, hs⟩ | ⟨s, hs, hprepared⟩
    · exact .inl ⟨e, by rw [hs]; rfl⟩
    rw [hs, pure_bind]
    refine (comes_streamsOf hscan ht place (position + 1) qs hq.2
      fun p hp => h p (List.mem_cons_of_mem q hp)).bind fun ss hss => comes_pure ?_
    have heq : ∀ s', streamOf x (position :: place) q = pure s' ↔ s' = s := fun s' => by
      rw [hs]
      exact ⟨fun h => (Except.ok.inj (congrArg (·.run.value) h)).symm, fun h => h ▸ rfl⟩
    by_cases hskipped : s.context = .skipped
    · rw [if_pos hskipped]
      refine ⟨hss.1, fun s' => ?_⟩
      rw [hss.2, isPart_cons, heq]
      refine and_congr_right fun hnot => (or_iff_right fun hself => hnot ?_).symm
      exact hself ▸ hskipped
    · rw [if_neg hskipped]
      refine ⟨List.forall_mem_cons.mpr
        ⟨⟨hskipped, hprepared.resolve_left hskipped⟩, hss.1⟩, fun s' => ?_⟩
      rw [List.mem_cons, hss.2, isPart_cons, heq]
      refine ⟨fun h => ?_, fun ⟨hnot, h⟩ => h.imp_right fun hpart => ⟨hnot, hpart⟩⟩
      rcases h with rfl | ⟨hnot, hpart⟩
      · exact ⟨hskipped, .inl rfl⟩
      · exact ⟨hnot, .inr hpart⟩

end

/-! ### Parts of joins -/

def HasPart (x : LookupContext) (place : Place) (cs : List Query) (s : Stream) : Prop :=
  ∃ i c, cs[i]? = some c ∧ lookUp x (i :: place) c = pure s

def partsOf (x : LookupContext) (place : Place) (cs : List Query) : Making (List Stream) := do
  let ss ← streamsOf x place 0 cs
  Stream.resolveAll (some (pool x)) ss

variable {cs : List Query} {s : Stream}

theorem lookUp_eq_pure_iff {P : Stream → Prop} (h : Comes (streamOf x place q) P) :
    lookUp x place q = pure s ↔ ∃ s', streamOf x place q = pure s' ∧ s'.await = pure s := by
  rw [lookUp]
  rcases h with ⟨e, hs⟩ | ⟨s', hs, -⟩
  · rw [hs]
    constructor
    · intro h
      cases congrArg (·.run.value) h
    · rintro ⟨s', hs', -⟩
      cases congrArg (·.run.value) hs'
  · rw [hs, pure_bind]
    refine ⟨fun h => ⟨s', rfl, h⟩, ?_⟩
    rintro ⟨s'', hs'', h⟩
    obtain rfl : s' = s'' := Except.ok.inj (congrArg (·.run.value) hs'')
    exact h

theorem await_of_skipped (h : s.context = .skipped) : s.await = pure s := by
  cases s with
  | leaf l =>
    obtain ⟨q, state⟩ := l
    cases state with
    | skipped => rfl
    | _ => cases h
  | _ => rfl

theorem comes_lookUp (hscan : ReturnsOrFails x t) (ht : IsShardIndex t) (place : Place)
    (hq : q.IsFlat) (h : EnumeratesShards x q) :
    Comes (lookUp x place q) fun s => s.context = .skipped ∨ s.Readable := by
  refine (comes_streamOf hscan ht place q hq h).bind fun s hs => ?_
  rcases hs with hskipped | hs
  · rw [await_of_skipped hskipped]
    exact comes_pure (.inl hskipped)
  · exact hs.mono fun _ => .inr

/-- A join is made of the streams of its parts, without those that take no part. -/
theorem comes_partsOf (hscan : ReturnsOrFails x t) (ht : IsShardIndex t) (place : Place)
    (hq : Query.FlatAll cs) (h : ∀ c ∈ cs, EnumeratesShards x c) :
    Comes (partsOf x place cs) fun ts => (∀ s ∈ ts, s.Readable) ∧
      ∀ s, s ∈ ts ↔ s.context ≠ .skipped ∧ HasPart x place cs s := by
  refine (comes_streamsOf hscan ht place 0 cs hq h).bind fun ss ⟨hss, hmem⟩ => ?_
  rcases Merge.Stream.comes_resolveAll (some (pool x)) fun s hs => (hss s hs).2 with
    he | ⟨ts, hts, hreadable, hall⟩
  · exact .inl he
  refine .inr ⟨ts, hts, hreadable, fun s => ?_⟩
  have hpart : HasPart x place cs s ↔ ∃ s', s'.await = pure s ∧
      IsPart place 0 cs fun place c => streamOf x place c = pure s' := by
    constructor
    · rintro ⟨i, c, hc, hs⟩
      have hmem := List.mem_of_getElem? hc
      obtain ⟨s', hs', hawait⟩ := (lookUp_eq_pure_iff (comes_streamOf hscan ht _ c
        (Query.flatAll_iff.mp hq c hmem) (h c hmem))).mp hs
      exact ⟨s', hawait, i, c, hc, by rwa [Nat.zero_add]⟩
    · rintro ⟨s', hawait, i, c, hc, hs⟩
      rw [Nat.zero_add] at hs
      exact ⟨i, c, hc, by rw [lookUp, hs, pure_bind, hawait]⟩
  rw [hall, hpart]
  constructor
  · rintro ⟨s', hs', hawait⟩
    obtain ⟨hnot, hpart⟩ := (hmem s').mp hs'
    refine ⟨?_, s', hawait, hpart⟩
    exact Merge.Stream.context_ne_skipped_of_readable
      (Comes.of_eq_pure (hss s' hs').2 hawait)
  · rintro ⟨hnot, s', hawait, hpart⟩
    refine ⟨s', (hmem s').mpr ⟨fun hskipped => hnot ?_, hpart⟩, hawait⟩
    -- what takes no part is not looked up
    rw [await_of_skipped hskipped] at hawait
    obtain rfl : s' = s := Except.ok.inj (congrArg (·.run.value) hawait)
    exact hskipped

theorem await_joinAll {ts : List Stream} :
    (do let s ← (liftM (joinAll q ts) : Making Stream); s.await) = liftM (joinAll q ts) := by
  rw [joinAll, liftM_bind, bind_assoc]
  refine bind_congr fun j => ?_
  rw [liftM_pure, pure_bind]
  split <;> rfl

theorem await_joinAny {ts : List Stream} :
    (do let s ← (liftM (joinAny q ts) : Making Stream); s.await) = liftM (joinAny q ts) := by
  rw [joinAny, liftM_bind, bind_assoc]
  refine bind_congr fun d => ?_
  rw [liftM_pure, pure_bind]
  split <;> rfl

theorem lookUp_and : lookUp x place (.and cs) = (do
    let ts ← partsOf x place cs
    liftM (joinAll (.and cs) ts)) := by
  simp only [lookUp, streamOf, partsOf, conjunction_eq, bind_assoc, await_joinAll]

theorem lookUp_or : lookUp x place (.or cs) = (do
    let ts ← partsOf x place cs
    liftM (joinAny (.or cs) ts)) := by
  simp only [lookUp, streamOf, partsOf, disjunction_eq, bind_assoc, await_joinAny]

theorem isLeaf_marked {m : Marker} (hs : marked x place q m cs = .ok s) : ∃ l, s = .leaf l := by
  unfold marked at hs
  split at hs
  · exact ⟨_, (Except.ok.inj hs).symm⟩
  · exact ⟨_, (Except.ok.inj hs).symm⟩
  · exact ⟨_, (Except.ok.inj hs).symm⟩
  · exact ⟨_, (Except.ok.inj hs).symm⟩
  · exact ⟨_, (Except.ok.inj hs).symm⟩
  · exact ⟨_, eq_of_exceeded hs⟩
  · exact ⟨_, eq_of_exceeded hs⟩
  · split at hs
    · obtain rfl := Except.ok.inj hs
      split
      · rw [interval]
        split <;> exact ⟨_, rfl⟩
      · exact ⟨_, rfl⟩
    · exact ⟨_, (Except.ok.inj hs).symm⟩

theorem context_ne_mixed {l : Leaf} (hs : (Stream.leaf l).await.run.value = .ok s) :
    s.context ≠ .mixed := by
  rw [Stream.await] at hs
  split at hs
  · cases hs
  · obtain rfl := Except.ok.inj hs
    change l.resolve.value.context ≠ .mixed
    generalize l.resolve.value = l
    obtain ⟨q, state⟩ := l
    cases state <;> simp [Leaf.context]

/-- Only joins are mixed. -/
theorem exists_join_of_mixed (hs : lookUp x place q = pure s) (hmixed : s.context = .mixed) :
    ∃ cs, q = .and cs ∨ q = .or cs := by
  by_contra hjoin
  push Not at hjoin
  have hleaf : ∀ s', (streamOf x place q).run.value = .ok s' → ∃ l, s' = .leaf l := by
    intro s' hs'
    cases q with
    | and cs => exact absurd rfl (hjoin cs).1
    | or cs => exact absurd rfl (hjoin cs).2
    | marked m cs => exact isLeaf_marked hs'
    | equality field literal => exact Except.ok.inj hs' ▸ exists_leaf_equality ..
    | assignment name value =>
      rw [streamOf] at hs'
      split at hs'
      · exact ⟨_, eq_of_hinted hs'⟩
      · exact ⟨_, (Except.ok.inj hs').symm⟩
    | _ => exact ⟨_, (Except.ok.inj hs').symm⟩
  have hvalue : (lookUp x place q).run.value = .ok s := by rw [hs]; rfl
  obtain ⟨s', hs', hawait⟩ := exists_of_bind hvalue
  obtain ⟨l, rfl⟩ := hleaf s' hs'
  exact context_ne_mixed hawait hmixed

/-- A conjunction that its mixed parts drive lists what all of these list. -/
theorem lookUp_and_of_driven (hscan : ReturnsOrFails x t) (ht : IsShardIndex t)
    (hq : (Query.and cs).IsFlat) (h : EnumeratesShards x (.and cs))
    (hunpositioned : ∀ s, HasPart x place cs s → s.context ≠ .present ∧ s.context ≠ .absent)
    (hmixed : ∃ s, HasPart x place cs s ∧ s.context = .mixed)
    (hroot : (lookUp x place (.and cs)).run.value = .ok s) :
    lookUp x place (.and cs) = pure s ∧ s.context = .mixed ∧ s.Readable ∧
      ∀ id, s.Lists id ↔ ∀ p, HasPart x place cs p → p.context = .mixed → p.Lists id := by
  rw [lookUp_and] at hroot ⊢
  have hflat := hq
  rw [Query.IsFlat] at hflat
  rcases comes_partsOf hscan ht place hflat.2.2 fun d hd c hc => h c (.and hd hc) with
    ⟨e, he⟩ | ⟨ts, hts, hreadable, hmem⟩
  · rw [he] at hroot
    cases hroot
  rw [hts, pure_bind] at hroot ⊢
  obtain ⟨j, hj, hj', hdriven⟩ := exists_joinAll hreadable hq
  rw [hj] at hroot ⊢
  obtain rfl : j = s := Except.ok.inj hroot
  obtain ⟨p, hp, hpmixed⟩ := hmixed
  have hpts : p ∈ ts := (hmem p).mpr ⟨by rw [hpmixed]; simp, hp⟩
  obtain ⟨hcontext, hlists⟩ := hdriven
    ⟨fun s hs => hunpositioned s ((hmem s).mp hs).2, p, hpts, hpmixed⟩
  refine ⟨rfl, hcontext, hj', fun id => (hlists id).trans ?_⟩
  refine forall_congr' fun s => ⟨fun h hs hsmixed => h ?_ hsmixed, fun h hs => h ((hmem s).mp hs).2⟩
  exact (hmem s).mpr ⟨by rw [hsmixed]; simp, hs⟩

theorem lists_lookUp_or (hscan : ReturnsOrFails x t) (ht : IsShardIndex t)
    (hq : (Query.or cs).IsFlat) (h : EnumeratesShards x (.or cs))
    (hs : lookUp x place (.or cs) = pure s) (hmixed : s.context = .mixed) (id : ShardId) :
    s.Lists id ↔ ∃ p, HasPart x place cs p ∧ p.context = .present ∧ p.Lists id := by
  rw [lookUp_or] at hs
  have hflat := hq
  rw [Query.IsFlat] at hflat
  rcases comes_partsOf hscan ht place hflat.2.2 fun d hd c hc => h c (.or hd hc) with
    ⟨e, he⟩ | ⟨ts, hts, hreadable, hmem⟩
  · rw [he] at hs
    cases congrArg (·.run.value) hs
  rw [hts, pure_bind] at hs
  obtain ⟨d, hd, -, hlists⟩ := exists_joinAny hreadable hq
  rw [hd] at hs
  obtain rfl : d = s := Except.ok.inj (congrArg (·.run.value) hs)
  rw [hlists hmixed]
  refine exists_congr fun p => ⟨fun ⟨hp, h⟩ => ⟨((hmem p).mp hp).2, h⟩, fun ⟨hp, h⟩ => ⟨?_, h⟩⟩
  exact (hmem p).mpr ⟨by rw [h.1]; simp, hp⟩

end Lookup

end ShardedSearch
