import ShardedSearch.Lookup.Clause
import ShardedSearch.Proofs.Lookup.Enumeration
import ShardedSearch.Proofs.Lookup.Interval
import ShardedSearch.Proofs.Merge.Made
import ShardedSearch.Proofs.Query.Clauses

/-! # Order of looked up shards

The streams of a query bring shards into view in the order in which their sources name them.
Between years of four digits this order is ascending. No shard of a day comes behind the day
itself, if neither the entries of an equality or interval nor a hint name both a day and one of
its shards.
-/

namespace ShardedSearch

open Index (Layout.shardOf ShardCounts)
open Merge (Context Leaf LeafState Source Spacing Stream)
open Merge.Stream
open Store (Entry Range Scanner StoreError Table)

namespace Shard

theorem spacing : Spacing IsListable MayFollow where
  trans _ _ _ hab hbc ha := by
    obtain ⟨hb, hlt⟩ := hab ha
    obtain ⟨hc, hlt'⟩ := hbc hb
    exact ⟨hc, precedes_trans ha hb hlt (precedes_iff.mp hlt').1⟩
  above _ hb hab hncov ha := ⟨isDated_of_early_lt ha hb hab, precedes_iff.mpr ⟨hab, hncov⟩⟩
  day _ _ _ hcov hbc hncov ha := by
    obtain ⟨hc, hlt⟩ := hbc (ha.of_covers hcov)
    exact ⟨hc, precedes_iff.mpr
      ⟨String.lt_trans (lt_of_covers hcov) (precedes_iff.mp hlt).1, hncov⟩⟩
  shard _ _ _ hab hcov ha := by
    obtain ⟨hb, hlt⟩ := hab ha
    exact ⟨hb.of_covers hcov, precedes_trans ha hb hlt (lt_of_covers hcov)⟩

end Shard

namespace Lookup

open Shard (IsDated IsListable MayFollow)

variable {x : LookupContext} {place : Place} {q : Query} {t : Table} {c : PlanConfig}
variable {counts : ShardCounts} {id : ShardId} {es : List Entry}
variable {L : ShardId → Prop} {R : ShardId → ShardId → Prop}

/-! ### What sources name -/

/-- The ids that the source of a clause names: those of the entries of a term or an interval
that are read, those of a hint, and all shards of the range for a clause with exceeded values. -/
inductive Names (c : PlanConfig) (counts : ShardCounts) (t : Table) : Query → ShardId → Prop where
  | term {field value : String} {e : Entry} : e ∈ termEntries c t field value →
      Names c counts t (.equality field (some value)) (Layout.shardOf e.1)
  | interval {field lower upper : String} {li ui : Bool} {e : Entry} :
      e ∈ entriesIn c t field (rowsBetween lower upper li ui) →
      ¬ (Shard.dayOf (Layout.shardOf e.1) < c.firstDay ∨
        c.lastDay < Shard.dayOf (Layout.shardOf e.1)) →
      Names c counts t (.marked .boundedRange [.range field lower upper li ui])
        (Layout.shardOf e.1)
  | hint {value : String} {id : ShardId} : id ∈ hintedShards value counts →
      Names c counts t (.assignment Query.hintName value) id
  | exceededValue {cs : List Query} {id : ShardId} : id ∈ c.days.flatMap counts.expand →
      Names c counts t (.marked .exceededValue cs) id
  | exceededOr {cs : List Query} {id : ShardId} : id ∈ c.days.flatMap counts.expand →
      Names c counts t (.marked .exceededOr cs) id

/-- The source of a clause names days of eight digits and their shards only, those of days
before the year zero aside, and no day together with one of its shards. -/
structure NamesApart (c : PlanConfig) (counts : ShardCounts) (t : Table) (q : Query) : Prop where
  listable : ∀ id, Names c counts t q id → IsListable id
  apart : ∀ a b, Names c counts t q a → Names c counts t q b → Shard.covers a b = false

theorem NamesApart.pairwise {ids : List ShardId} (h : NamesApart c counts t q)
    (hids : ∀ id ∈ ids, Names c counts t q id) (hasc : ids.Pairwise (· < ·)) :
    (∀ id ∈ ids, IsListable id) ∧ ids.Pairwise MayFollow :=
  ⟨fun id hid => h.listable id (hids id hid),
    Shard.pairwise_mayFollow hasc (fun id hid => h.listable id (hids id hid))
      fun a ha b hb => h.apart a b (hids a ha) (hids b hb)⟩

/-- The ids that the source of a clause names have a property, and each may be followed by those
that come behind it: by greater ones or, if all shards of the range are listed, by those of later
days. -/
structure Arranged (L : ShardId → Prop) (R : ShardId → ShardId → Prop) (c : PlanConfig)
    (counts : ShardCounts) (t : Table) (q : Query) : Prop where
  named : ∀ ids : List ShardId, (∀ id ∈ ids, Names c counts t q id) → ids.Pairwise (· < ·) →
    (∀ id ∈ ids, L id) ∧ ids.Pairwise R
  listed : ∀ cs, q = .marked .exceededValue cs ∨ q = .marked .exceededOr cs →
    (∀ id ∈ c.days.flatMap counts.expand, L id) ∧ (c.days.flatMap counts.expand).Pairwise R

theorem NamesApart.arranged (h : NamesApart c counts t q) :
    Arranged IsListable MayFollow c counts t q where
  named _ hids hasc := h.pairwise hids hasc
  listed cs hq := by
    have hlist : ∀ id ∈ c.days.flatMap counts.expand, IsListable id := by
      rcases hq with rfl | rfl
      · exact fun id hid => h.listable id (.exceededValue hid)
      · exact fun id hid => h.listable id (.exceededOr hid)
    exact ⟨hlist, Calendar.Date.pairwise_expand_upTo hlist⟩

theorem arranged_of_years (hfirst : 0 ≤ c.first.year) (hlast : c.last.year ≤ 9999) (q : Query) :
    Arranged (fun _ => True) (· < ·) c counts t q where
  named _ _ hasc := ⟨fun _ _ => trivial, hasc⟩
  listed _ _ := ⟨fun _ _ => trivial, Calendar.Date.ascending_expand_upTo hfirst hlast⟩

theorem NamesApart.of_mem (ids : List ShardId) (hids : ∀ id, Names c counts t q id → id ∈ ids)
    (hdated : ∀ id ∈ ids, IsDated id) (hapart : ∀ a ∈ ids, ∀ b ∈ ids, Shard.covers a b = false) :
    NamesApart c counts t q :=
  ⟨fun id hid => .inl (hdated id (hids id hid)),
    fun a b ha hb => hapart a (hids a ha) b (hids b hb)⟩

/-! ### Shards of sources -/

def shardsOf (l : Merge.Lookup) : List ShardId :=
  match l.result with
  | .ok source => source.items.map (·.2.shard)
  | .error _ => []

theorem shards_termSource (q : Query) (late : Option StoreError)
    (gs : List (ShardId × List Wire.Bytes)) :
    ((termSource q late gs).items.map (·.2.shard)).Sublist (gs.map (·.1)) := by
  induction gs with
  | nil => exact .slnil
  | cons g gs ih =>
    rw [termSource]
    split
    · exact List.nil_sublist _
    · split
      · exact ih.cons _
      · cases gs with
        | nil => exact List.Sublist.refl _
        | cons g' gs => exact ih.cons_cons _

theorem shardOf_of_mem_groups {g : ShardId × List Wire.Bytes} (h : ByShard es)
    (hg : g ∈ groups es) : ∃ e ∈ es, Layout.shardOf e.1 = g.1 :=
  exists_shardOf_of_find?_groups (groups_spec h).2 hg

/-- Every scanner that opens sees one and the same table, and may fail at any read. -/
def Opens (x : LookupContext) (t : Table) : Prop :=
  ∀ place s, x.scannerAt place = .ok s → ∃ name limit, s = .ofTable name t limit

theorem shardsOf_holding_sublist (n : Nat) (s : Except StoreError Scanner) (l : Merge.Lookup) :
    (shardsOf (holding n s l)).Sublist (shardsOf l) := by
  unfold holding
  split
  · split
    · exact .refl _
    · exact List.nil_sublist _
  · exact .refl _

theorem entries_front {field : String} {range : Range} {size : Nat} {b : Batches}
    (hx : Opens x t)
    (h : (openScanner x place field range).bind (Batches.read size false) = .ok b) :
    b.entries <+: entriesIn x.config t field range := by
  cases hs : x.scannerAt place with
  | error e =>
    rw [openScanner, hs] at h
    cases h
  | ok s =>
    obtain ⟨name, limit, rfl⟩ := hx place s hs
    obtain ⟨s', hopen, hleft, hentries, -⟩ :=
      @exists_openScanner x place name field t limit range hs
    rw [hopen] at h
    rw [← hleft]
    exact (Batches.holdsFrom_read (hentries ▸ t.ascending) h).front

theorem shards_ofTerm {field value : String} (hx : Opens x t) :
    let l := ofTerm q (batchSize x) false
      (openScanner x place field (rangeOf x.config field value))
    (shardsOf l).Pairwise (· < ·) ∧ ∀ id ∈ shardsOf l,
      ∃ e ∈ termEntries x.config t field value, Layout.shardOf e.1 = id := by
  intro l
  change (shardsOf (ofTerm ..)).Pairwise (· < ·) ∧ ∀ id ∈ shardsOf (ofTerm ..), _
  unfold ofTerm
  split
  · next b hb =>
    have hfront := entriesIn_rangeOf x.config t field value ▸ entries_front hx hb
    have hby : ByShard b.entries :=
      (byShard_termEntries x.config t field value).sublist hfront.sublist
    have hsub := shards_termSource q b.late (groups b.entries)
    refine ⟨(List.pairwise_map.mpr (groups_spec hby).1).sublist hsub, fun id hid => ?_⟩
    obtain ⟨g, hg, rfl⟩ := List.mem_map.mp (hsub.subset hid)
    obtain ⟨e, he, hshard⟩ := shardOf_of_mem_groups hby hg
    exact ⟨e, hfront.subset he, hshard⟩
  · exact ⟨.nil, fun id hid => absurd hid List.not_mem_nil⟩

theorem shards_ofInterval {field firstDay lastDay : String} {range : Range} (hx : Opens x t) :
    let l := ofInterval q firstDay lastDay (batchSize x) false
      (openScanner x place field range)
    (shardsOf l).Pairwise (· < ·) ∧ ∀ id ∈ shardsOf l,
      ∃ e ∈ entriesIn x.config t field range, Layout.shardOf e.1 = id ∧
        ¬ (Shard.dayOf (Layout.shardOf e.1) < firstDay ∨
          lastDay < Shard.dayOf (Layout.shardOf e.1)) := by
  intro l
  change (shardsOf (ofInterval ..)).Pairwise (· < ·) ∧ ∀ id ∈ shardsOf (ofInterval ..), _
  unfold ofInterval
  split
  · next b hb =>
    have hfront := entries_front hx hb
    split
    · next found hfound =>
      have hshards : shardsOf ⟨b.late.map .store, .ok (.ofList (mergedCandidates found))⟩ =
          (mergedCandidates found).map (·.shard) := by
        simp only [shardsOf, Source.ofList, List.map_map]
        rfl
      have hsub := shards_mergedCandidates found
      rw [hshards]
      refine ⟨(List.pairwise_map.mpr found.ascending).sublist hsub, fun id hid => ?_⟩
      obtain ⟨a, ha, rfl⟩ := List.mem_map.mp (hsub.subset hid)
      rcases key_of_addEntries hfound a ha with ⟨b, hb, -⟩ | ⟨e, he, hshard, hday⟩
      · cases hb
      · exact ⟨e, hfront.subset he, hshard, hday⟩
    · exact ⟨.nil, fun id hid => absurd hid List.not_mem_nil⟩
  · exact ⟨.nil, fun id hid => absurd hid List.not_mem_nil⟩

/-! ### Making streams -/

theorem makesOrdered_settled {l : Leaf} (hl : l.Settled)
    (h : (∀ id ∈ l.shards, L id) ∧ l.shards.Pairwise R) :
    MakesOrdered L R (Stream.leaf l).await := by
  have hself : l.resolve.value = l := by
    rw [Leaf.resolve_of_settled hl]
    rfl
  exact makesOrdered_leaf (hself.symm ▸ h)

theorem makesOrdered_empty {state : LeafState} (hl : Leaf.Settled ⟨q, state⟩)
    (h : Leaf.shards ⟨q, state⟩ = []) : MakesOrdered L R (leaf q state).await :=
  makesOrdered_settled hl ⟨by rw [h]; simp, by rw [h]; exact .nil⟩

theorem shards_stateOf (q : Query) (p : Option Candidate × Source) :
    Leaf.shards ⟨q, Leaf.stateOf p⟩ = Leaf.shardsFrom p := by
  rcases p with ⟨_ | c, rest⟩ <;> rfl

theorem shards_resolve (l : Merge.Lookup) :
    (Leaf.resolve ⟨q, .pending l⟩).value.shards = shardsOf l := by
  obtain ⟨raised, result⟩ := l
  cases result with
  | ok source => exact (shards_stateOf q source.pull.value).trans (Leaf.shardsFrom_pull source)
  | error e => cases e <;> rfl

theorem makesOrdered_pending {l : Merge.Lookup}
    (h : (∀ id ∈ shardsOf l, L id) ∧ (shardsOf l).Pairwise R) :
    MakesOrdered L R (leaf q (.pending l)).await :=
  makesOrdered_leaf ((@shards_resolve q l).symm ▸ h)

theorem makesOrdered_ofList {cs : List Candidate}
    (h : (∀ id ∈ cs.map (·.shard), L id) ∧ (cs.map (·.shard)).Pairwise R) :
    MakesOrdered L R (Stream.leaf (.ofList q cs)).await := by
  have hids : Leaf.shards (.ofList q cs) = cs.map (·.shard) := by
    refine (shards_stateOf q _).trans ((Leaf.shardsFrom_pull _).trans ?_)
    rw [Source.ofList, List.map_map]
    rfl
  exact makesOrdered_settled (Leaf.settled_stateOf q _) (hids ▸ h)

theorem makesOrdered_absent : MakesOrdered L R (leaf q .absent).await :=
  makesOrdered_empty (fun _ he => by cases he) rfl

theorem makesOrdered_delayed : MakesOrdered L R (leaf q .delayed).await :=
  makesOrdered_empty (fun _ he => by cases he) rfl

theorem makesOrdered_skipped : MakesOrdered L R (leaf q .skipped).await :=
  makesOrdered_empty (fun _ he => by cases he) rfl

theorem makesOrdered_holding {n : Nat} {s : Except StoreError Scanner} {l : Merge.Lookup}
    (h : (∀ id ∈ shardsOf l, L id) ∧ (shardsOf l).Pairwise R) :
    MakesOrdered L R (leaf q (.pending (holding n s l))).await := by
  have hsub := shardsOf_holding_sublist n s l
  exact makesOrdered_pending ⟨fun id hid => h.1 id (hsub.subset hid), h.2.sublist hsub⟩

theorem makesOrdered_term {field value : String} (hx : Opens x t)
    (h : Arranged L R x.config x.counts t (.equality field (some value))) :
    MakesOrdered L R (term x place q field value).await := by
  obtain ⟨hasc, hmem⟩ := @shards_ofTerm x place q t field value hx
  refine makesOrdered_holding (h.named _ (fun id hid => ?_) hasc)
  obtain ⟨e, he, rfl⟩ := hmem id hid
  exact .term he

theorem makesOrdered_interval {field lower upper : String} {li ui : Bool} (hx : Opens x t)
    (h : Arranged L R x.config x.counts t
      (.marked .boundedRange [.range field lower upper li ui])) :
    MakesOrdered L R (interval x place q field lower upper li ui).await := by
  rw [interval]
  split
  · exact makesOrdered_absent
  · obtain ⟨hasc, hmem⟩ := @shards_ofInterval x place q t field x.config.firstDay
      x.config.lastDay (rowsBetween lower upper li ui) hx
    refine makesOrdered_holding (h.named _ (fun id hid => ?_) hasc)
    obtain ⟨e, he, rfl, hday⟩ := hmem id hid
    exact .interval he hday

theorem makesOrdered_equality {field : String} {literal : Option String} (hx : Opens x t)
    (h : Arranged L R x.config x.counts t (.equality field literal)) :
    MakesOrdered L R (equality x place (.equality field literal) field literal).await := by
  unfold equality
  split
  · exact makesOrdered_absent
  · split
    · exact makesOrdered_delayed
    · split
      · exact makesOrdered_delayed
      · split
        · exact makesOrdered_absent
        · split
          · exact makesOrdered_delayed
          · exact makesOrdered_term hx h

theorem makesOrdered_condition {field : String} : MakesOrdered L R (condition q field).await := by
  unfold condition
  split
  · exact makesOrdered_absent
  · exact makesOrdered_delayed

theorem makesOrdered_hinted {value : String}
    (h : Arranged L R x.config x.counts t (.assignment Query.hintName value)) :
    MakesOrdered L R (Stream.leaf (.ofList q (hinted q value x.counts))).await := by
  have hids : (hinted q value x.counts).map (·.shard) = (hintedShards value x.counts).toList := by
    rw [hinted, List.map_map]
    exact List.map_id _
  refine makesOrdered_ofList (hids.symm ▸ h.named _ (fun id hid => .hint hid) ?_)
  exact (hintedShards value x.counts).ascending

theorem makesOrdered_exceeded
    (h : (∀ id ∈ x.config.days.flatMap x.counts.expand, L id) ∧
      (x.config.days.flatMap x.counts.expand).Pairwise R) {s : Stream}
    (hs : exceeded x q = .ok s) : MakesOrdered L R s.await := by
  obtain rfl := eq_of_exceeded hs
  exact makesOrdered_ofList ((shards_shardsOfDays q x.config.days x.counts).symm ▸ h)

theorem makesOrdered_marked {m : Marker} {cs : List Query} (hx : Opens x t)
    (h : Arranged L R x.config x.counts t (.marked m cs)) {s : Stream}
    (hs : marked x place (.marked m cs) m cs = .ok s) : MakesOrdered L R s.await := by
  unfold marked at hs
  split at hs
  · obtain rfl := Except.ok.inj hs
    exact makesOrdered_delayed
  · obtain rfl := Except.ok.inj hs
    exact makesOrdered_delayed
  · obtain rfl := Except.ok.inj hs
    exact makesOrdered_delayed
  · obtain rfl := Except.ok.inj hs
    exact makesOrdered_delayed
  · obtain rfl := Except.ok.inj hs
    exact makesOrdered_skipped
  · exact makesOrdered_exceeded (h.listed _ (.inl rfl)) hs
  · exact makesOrdered_exceeded (h.listed _ (.inr rfl)) hs
  · split at hs
    · obtain rfl := Except.ok.inj hs
      split
      · exact makesOrdered_interval hx h
      · exact makesOrdered_delayed
    · obtain rfl := Except.ok.inj hs
      exact makesOrdered_delayed

/-! ### Merges -/

section Merges

variable (hR : Spacing L R)
include hR

theorem makesOrdered_disjunction {ss : List Stream} (hs : ∀ s ∈ ss, MakesOrdered L R s.await)
    {s : Stream} (h : (disjunction x q ss).run.value = .ok s) : MakesOrdered L R s.await := by
  rw [disjunction_eq] at h
  obtain ⟨ts, hts, h⟩ := exists_of_bind h
  have hordered := ordered_ofStreams_disjunction (q := q) hR (ordered_resolveAll hts hs)
  obtain rfl : (joinAny q ts).value = s := Except.ok.inj h
  rw [joinAny, Raising.value_bind, Raising.value_pure]
  split
  · exact makesOrdered_absent
  · exact makesOrdered_delayed
  · exact makesOrdered_await hordered

theorem makesOrdered_conjunction {ss : List Stream} (hs : ∀ s ∈ ss, MakesOrdered L R s.await)
    {s : Stream} (h : (conjunction x q ss).run.value = .ok s) : MakesOrdered L R s.await := by
  rw [conjunction_eq] at h
  obtain ⟨ts, hts, h⟩ := exists_of_bind h
  have hordered := ordered_ofStreams_conjunction (q := q) hR (ordered_resolveAll hts hs)
  obtain rfl : (joinAll q ts).value = s := Except.ok.inj h
  rw [joinAll, Raising.value_bind, Raising.value_pure]
  split
  · exact makesOrdered_absent
  · exact makesOrdered_await hordered

end Merges

/-! ### Queries -/

mutual

theorem makesOrdered_streamOf (hR : Spacing L R) (hx : Opens x t)
    (place : Place) (q : Query)
    (h : ∀ c, Query.IsClauseOf c q → Arranged L R x.config x.counts t c) {s : Stream}
    (hs : (streamOf x place q).run.value = .ok s) : MakesOrdered L R s.await := by
  match q with
  | .equality field literal =>
    obtain rfl := Except.ok.inj hs
    exact makesOrdered_equality hx (h _ .self)
  | .range field .. =>
    obtain rfl := Except.ok.inj hs
    exact makesOrdered_condition
  | .compare field .. =>
    obtain rfl := Except.ok.inj hs
    exact makesOrdered_condition
  | .regex field _ =>
    obtain rfl := Except.ok.inj hs
    exact makesOrdered_condition
  | .not q =>
    obtain rfl := Except.ok.inj hs
    exact makesOrdered_delayed
  | .function .. =>
    obtain rfl := Except.ok.inj hs
    exact makesOrdered_delayed
  | .true =>
    obtain rfl := Except.ok.inj hs
    exact makesOrdered_delayed
  | .false =>
    obtain rfl := Except.ok.inj hs
    exact makesOrdered_absent
  | .assignment name value =>
    rw [streamOf] at hs
    split at hs
    · next hname =>
      subst hname
      obtain rfl := eq_of_hinted hs
      exact makesOrdered_hinted (h _ .self)
    · obtain rfl := Except.ok.inj hs
      exact makesOrdered_skipped
  | .marked m cs => exact makesOrdered_marked hx (h _ .self) hs
  | .and cs =>
    rw [streamOf] at hs
    obtain ⟨ss, hss, hs⟩ := exists_of_bind hs
    refine makesOrdered_conjunction hR
      (makesOrdered_streamsOf hR hx place 0 cs (fun d hd c hc => ?_) hss) hs
    exact h c (.and hd hc)
  | .or cs =>
    rw [streamOf] at hs
    obtain ⟨ss, hss, hs⟩ := exists_of_bind hs
    refine makesOrdered_disjunction hR
      (makesOrdered_streamsOf hR hx place 0 cs (fun d hd c hc => ?_) hss) hs
    exact h c (.or hd hc)

theorem makesOrdered_streamsOf (hR : Spacing L R) (hx : Opens x t)
    (place : Place) (position : Nat) (qs : List Query)
    (h : ∀ q ∈ qs, ∀ c, Query.IsClauseOf c q → Arranged L R x.config x.counts t c)
    {ss : List Stream} (hs : (streamsOf x place position qs).run.value = .ok ss) :
    ∀ s ∈ ss, MakesOrdered L R s.await := by
  match qs with
  | [] =>
    obtain rfl := Except.ok.inj hs
    simp
  | q :: qs =>
    rw [streamsOf] at hs
    obtain ⟨s, hsq, hs⟩ := exists_of_bind hs
    obtain ⟨ss', hsqs, hs⟩ := exists_of_bind hs
    obtain rfl := Except.ok.inj hs
    have hhead := makesOrdered_streamOf hR hx (position :: place) q (h q List.mem_cons_self) hsq
    have htail := makesOrdered_streamsOf hR hx place (position + 1) qs
      (fun p hp => h p (List.mem_cons_of_mem q hp)) hsqs
    split
    · exact htail
    · exact List.forall_mem_cons.mpr ⟨hhead, htail⟩

end

/-- The root stream of a query whose sources are in order is in order. -/
theorem ordered_rootOf (hR : Spacing L R) (hx : Opens x t)
    (h : ∀ c, Query.IsClauseOf c q → Arranged L R x.config x.counts t c)
    {root : Stream} (hroot : (rootOf x q).run.value = .ok root) :
    root.Ordered L R := by
  obtain ⟨s, hs, hroot⟩ := exists_of_bind hroot
  exact makesOrdered_streamOf hR hx [] q h hs root hroot

end Lookup

end ShardedSearch
