import ShardedSearch.Plan.Route
import ShardedSearch.Proofs.Plan.Document

/-! # Documents that plans find

Plans find a document in its shard if what they evaluate there holds for it. Plans that cover all
shards with a document in question, and mean the query in theirs, find just what it asks for.
-/

namespace ShardedSearch

namespace PlanStream

variable {s : PlanStream} {c : PlanConfig} {docs : List Document}
variable {truth : Document → Query → Bool} {q : Query} {d : Document}

theorem ok_mem_map_ok_iff {p : ShardPlan} {ps : List ShardPlan} :
    (Except.ok p : Except PlanError ShardPlan) ∈ ps.map .ok ↔ p ∈ ps := by
  simp

def Covers (s : PlanStream) (id : ShardId) : Prop := ∃ p, .ok p ∈ s.drain.1 ∧ p.shard = id

/-- Whether a plan of its shard holds for a document. -/
def Reaches (s : PlanStream) (truth : Document → Query → Bool) (d : Document) : Prop :=
  ∃ p, .ok p ∈ s.drain.1 ∧ p.shard = d.shard ∧ d.Satisfies truth p.query

/-- Whether the plans of a stream find just what a query asks for between two days. -/
structure Finds (s : PlanStream) (c : PlanConfig) (docs : List Document)
    (truth : Document → Query → Bool) (q : Query) : Prop where
  complete : ∀ d ∈ docs, d.IsWithin c.first c.last → d.Satisfies truth q → s.Covers d.shard
  faithful : ∀ p, .ok p ∈ s.drain.1 → ∀ d ∈ docs, d.shard = p.shard →
    (d.Satisfies truth p.query ↔ d.Satisfies truth q)

theorem Finds.reaches_iff (h : s.Finds c docs truth q) (hd : d ∈ docs)
    (hwithin : d.IsWithin c.first c.last) : s.Reaches truth d ↔ d.Satisfies truth q := by
  constructor
  · rintro ⟨p, hp, hshard, hsat⟩
    exact (h.faithful p hp d hd hshard.symm).mp hsat
  · intro hsat
    obtain ⟨p, hp, hshard⟩ := h.complete d hd hwithin hsat
    exact ⟨p, hp, hshard, (h.faithful p hp d hd hshard.symm).mpr hsat⟩

end PlanStream

end ShardedSearch
