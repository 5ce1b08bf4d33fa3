import ShardedSearch.Plan.Basic
import ShardedSearch.Proofs.Query.Selectivity

/-! # What plans ask for

Every id that the pattern admits has a plan, for that id and with a query that means what
it was made from.
-/

namespace ShardedSearch.ShardPlan

variable {c : PlanConfig} {id : ShardId} {q : Query} {counts : Counts} {p : ShardPlan}

theorem rangesOf_ne_nil_iff {pattern : Pattern} :
    rangesOf pattern id ≠ [] ↔ pattern.occursIn id = true := by
  rw [rangesOf]
  split <;> simp [*]

theorem make?_eq_some_of_admits (h : c.admits id = true) :
    ∃ p, make? c id q counts = some p ∧ p.shard = id := by
  have hne := rangesOf_ne_nil_iff.mpr h
  unfold make?
  split
  · next hnil => exact absurd hnil hne
  · exact ⟨_, rfl, rfl⟩

/-- All there is to the plan of a query in a shard. -/
structure IsMade (c : PlanConfig) (id : ShardId) (q : Query) (counts : Counts) (p : ShardPlan) :
    Prop where
  admits : c.admits id = true
  shard : p.shard = id
  ranges : p.ranges = rangesOf c.idPattern id
  query : p.query =
    if c.settings.plans.sortByCounts then order q p.termCounts p.fieldCounts else q
  termCounts : p.termCounts = if c.settings.plans.termCounts then counts.terms else .empty
  fieldCounts : p.fieldCounts = if c.settings.plans.fieldCounts then counts.fields else .empty

theorem make?_eq_some_iff : make? c id q counts = some p ↔ IsMade c id q counts p := by
  unfold make?
  split
  · next hnil => exact ⟨nofun, fun h => absurd hnil (rangesOf_ne_nil_iff.mpr h.admits)⟩
  · next hne =>
    constructor
    · intro h
      obtain rfl := Option.some.inj h
      exact ⟨rangesOf_ne_nil_iff.mp fun hnil => hne hnil, rfl, rfl, rfl, rfl, rfl⟩
    · rintro ⟨-, hshard, hranges, hquery, hterms, hfields⟩
      obtain ⟨shard, ranges, query, termCounts, fieldCounts⟩ := p
      dsimp only at hshard hranges hquery hterms hfields
      rw [hshard, hranges, hquery, hterms, hfields]

theorem admits_of_make? (h : make? c id q counts = some p) : c.admits id = true :=
  (make?_eq_some_iff.mp h).admits

theorem shard_of_make? (h : make? c id q counts = some p) : p.shard = id :=
  (make?_eq_some_iff.mp h).shard

theorem exists_ofShard?_of_admits (q : Query) (h : c.admits id = true) :
    ∃ p, ofShard? c id q = some p ∧ p.shard = id :=
  make?_eq_some_of_admits h

theorem ofShard?_eq (c : PlanConfig) (id : ShardId) (q : Query) : ofShard? c id q =
    if c.admits id then some ⟨id, rangesOf c.idPattern id, q, .empty, .empty⟩ else none := by
  rw [ofShard?, make?, PlanConfig.admits]
  split
  · next hnil => rw [if_neg fun h => rangesOf_ne_nil_iff.mpr h hnil]
  · next hne =>
    rw [if_pos (rangesOf_ne_nil_iff.mp fun hnil => hne hnil)]
    simp [Counts.empty, order, SortedMap.isEmpty, SortedMap.empty]

theorem holds_order (truth : Query → Bool) (termCounts fieldCounts : SortedMap String Nat) :
    (order q termCounts fieldCounts).holds truth = q.holds truth := by
  unfold order
  split
  · exact Query.holds_orderByCost ..
  · split
    · exact Query.holds_orderByCost ..
    · rfl

theorem holds_of_make? (h : make? c id q counts = some p) (truth : Query → Bool) :
    p.query.holds truth = q.holds truth := by
  rw [(make?_eq_some_iff.mp h).query]
  split
  · exact holds_order ..
  · rfl

end ShardedSearch.ShardPlan
