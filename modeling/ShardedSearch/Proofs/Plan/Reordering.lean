import ShardedSearch.Proofs.Lookup.Reordering
import ShardedSearch.Proofs.Plan.Driving
import ShardedSearch.Proofs.Plan.Faults

/-! # Plans of reordered queries

The order of clauses does not show in the plans of a run. Reordered queries have rearranged root
streams, whose candidates agree one by one, and agreeing candidates have agreeing plans.
-/

namespace ShardedSearch

open Lookup (IsUniform)
open Merge (Stream)
open Merge.Stream (Settled)
open Query (Reorders)

namespace ShardPlan

structure Agree (p p' : ShardPlan) : Prop where
  shard : p.shard = p'.shard
  ranges : p.ranges = p'.ranges
  query : p.query.Equivalent p'.query
  termCounts : p.termCounts = p'.termCounts
  fieldCounts : p.fieldCounts = p'.fieldCounts

theorem agree_of_candidates (c : PlanConfig) {k k' : Candidate} (h : k.Agree k') :
    Option.Rel Agree (ofCandidate? c k) (ofCandidate? c k') := by
  rw [ofCandidate?, ofCandidate?, make?, make?, h.shard, h.evidence.counts]
  split
  · exact .none
  · refine .some ⟨rfl, rfl, fun truth => ?_, rfl, rfl⟩
    dsimp only
    split
    · rw [holds_order, holds_order, h.evidence.query truth]
    · exact h.evidence.query truth

end ShardPlan

namespace PlanRun

variable {x : LookupContext} {q q' : Query} {r r' : PlanRun} {ps ps' : List ShardPlan}
variable {cs cs' : List Candidate}

theorem rootContext_eq (h : Reorders q q') (c : Merge.Context) :
    rootContext q c = rootContext q' c := by
  cases h <;> cases c <;> rfl

theorem exists_handsOut_of_settled {n : Nat} (hclosed : r.closed = false)
    (hs : ∀ root, r.root = some root → Settled n root) : ∃ cs e?, r.HandsOut cs e? := by
  cases hraised : r.raised with
  | some e => exact ⟨[], some e, .failed hraised hclosed⟩
  | none =>
    cases hroot : r.root with
    | none => exact ⟨[], none, .ended hraised hroot⟩
    | some root =>
      obtain ⟨cs, e?, hg⟩ := Stream.exists_gives (hs root hroot)
      exact ⟨cs, e?, .given hraised hclosed hroot (hs root hroot) hg⟩

/-- A run that hands out plans only meets no error, and has the plans of all its candidates. -/
theorem eq_plansOf_of_handsOut {e? : Option PlanError} (h : r.HandsOut cs e?)
    (hps : (PlanStream.lookup r).drain.1 = ps.map .ok) :
    e? = none ∧ ps = plansOf r.config cs := by
  obtain ⟨rest, hdrain, -⟩ := drain_of_handsOut h
  rw [hdrain, recorded?_of_handsOut h] at hps
  cases e? with
  | some e =>
    have he : Except.error e ∈ ps.map (Except.ok (ε := PlanError)) := by
      rw [← hps]
      exact List.mem_append_right _ (List.mem_singleton_self _)
    obtain ⟨p, -, hp⟩ := List.mem_map.mp he
    cases hp
  | none =>
    rw [Option.toList_none, List.map_nil, List.append_nil] at hps
    exact ⟨rfl, (List.map_injective_iff.mpr (fun _ _ => Except.ok.inj) hps).symm⟩

structure Rearranged (n : Nat) (r r' : PlanRun) : Prop where
  config : r.config = r'.config
  context : r.context = r'.context
  opened : r.closed = false ∧ r'.closed = false
  root : Option.Rel (Stream.Rearranged n) r.root r'.root

theorem settled_of_rel {n : Nat} {root? root?' : Option Stream}
    (h : Option.Rel (Stream.Rearranged n) root? root?') :
    (∀ root, root? = some root → Settled n root) ∧ ∀ root, root?' = some root → Settled n root := by
  cases h with
  | none => exact ⟨nofun, nofun⟩
  | some hn =>
    obtain ⟨hs, hs'⟩ := (Stream.rearranging n).settled hn
    exact ⟨fun _ heq => Option.some.inj heq ▸ hs, fun _ heq => Option.some.inj heq ▸ hs'⟩

/-- Rearranged runs have agreeing candidates, unless they meet an error. -/
theorem agree_of_handsOut {n : Nat} (hr : Rearranged n r r') (h : r.HandsOut cs none)
    (h' : r'.HandsOut cs' none) : List.Forall₂ Candidate.Agree cs cs' := by
  have hroot := hr.root
  cases h with
  | ended _ hnone =>
    cases h' with
    | ended => exact .nil
    | given _ _ hsome' =>
      rw [hnone, hsome'] at hroot
      cases hroot
  | given _ _ hsome _ hg =>
    cases h' with
    | ended _ hnone' =>
      rw [hsome, hnone'] at hroot
      cases hroot
    | given _ _ hsome' _ hg' =>
      rw [hsome, hsome'] at hroot
      cases hroot with
      | some hn =>
        exact Stream.agree_of_drains hn (Stream.drains_of_gives hg rfl)
          (Stream.drains_of_gives hg' rfl)

theorem agree_of_drain {n : Nat} (h : Rearranged n r r')
    (hps : (PlanStream.lookup r).drain.1 = ps.map .ok)
    (hps' : (PlanStream.lookup r').drain.1 = ps'.map .ok) :
    List.Forall₂ ShardPlan.Agree ps ps' := by
  obtain ⟨hs, hs'⟩ := settled_of_rel h.root
  obtain ⟨cs, e?, hcs⟩ := exists_handsOut_of_settled h.opened.1 hs
  obtain ⟨cs', e?', hcs'⟩ := exists_handsOut_of_settled h.opened.2 hs'
  obtain ⟨rfl, rfl⟩ := eq_plansOf_of_handsOut hcs hps
  obtain ⟨rfl, rfl⟩ := eq_plansOf_of_handsOut hcs' hps'
  rw [← h.config]
  exact List.rel_filterMap (fun _ _ hk => ShardPlan.agree_of_candidates r.config hk)
    (agree_of_handsOut h hcs hcs')

theorem exists_rearranged_of_start (hx : IsUniform x) (h : Reorders q q') (hr : start x q = .ok r)
    (hr' : start x q' = .ok r') : ∃ n, Rearranged n r r' := by
  obtain ⟨root, hroot, rfl⟩ := eq_of_start hr
  obtain ⟨root', hroot', rfl⟩ := eq_of_start hr'
  obtain ⟨n, hn⟩ := Lookup.rootOf_rearranged hx h.flatten hroot hroot'
  have hcontext : rootContext q.flatten root.context = rootContext q'.flatten root'.context := by
    rw [Stream.context_of_rearranged hn, rootContext_eq h.flatten]
  refine ⟨n, rfl, hcontext, ⟨rfl, rfl⟩, ?_⟩
  dsimp only
  rw [hcontext]
  split
  · exact .some hn
  · exact .none

theorem isUniform_lookupContext (p : Planner) : IsUniform p.lookupContext := fun _ _ => rfl

/-- The order of clauses does not matter. A query and any other one with the children of some of
its conjunctions and disjunctions in another order have runs with the same context; if neither
run meets an error, they plan the same shards in the same order, with the same counts and for
queries that mean the same. -/
theorem plans_agree_of_reorders (p : Planner) (h : Reorders q q')
    (hr : start p.lookupContext q = .ok r) (hr' : start p.lookupContext q' = .ok r')
    (hps : (PlanStream.lookup r).drain.1 = ps.map .ok)
    (hps' : (PlanStream.lookup r').drain.1 = ps'.map .ok) :
    r.context = r'.context ∧ List.Forall₂ ShardPlan.Agree ps ps' := by
  obtain ⟨n, hn⟩ := exists_rearranged_of_start (isUniform_lookupContext p) h hr hr'
  exact ⟨hn.context, agree_of_drain hn hps hps'⟩

/-! ### Clauses in another order -/

def nestedQuery : Query :=
  .or [.and [.equals "A" "1", .or [.equals "A" "2", .regex "B" (some ".*")]], .equals "A" "2"]

def nestedReversed : Query :=
  .or [.equals "A" "2", .and [.or [.regex "B" (some ".*"), .equals "A" "2"], .equals "A" "1"]]

theorem reorders_nestedQuery : Reorders nestedQuery nestedReversed := by
  have hmixed : Reorders (.or [.equals "A" "2", .regex "B" (some ".*")])
      (.or [.regex "B" (some ".*"), .equals "A" "2"]) :=
    .or (Reorders.forall₂_refl _) (.swap _ _ _)
  have hand : Reorders (.and [.equals "A" "1", .or [.equals "A" "2", .regex "B" (some ".*")]])
      (.and [.or [.regex "B" (some ".*"), .equals "A" "2"], .equals "A" "1"]) :=
    .and (.cons (.refl _) (.cons hmixed .nil)) (.swap _ _ _)
  exact .or (.cons hand (.cons (.refl _) .nil)) (.swap _ _ _)

def Plans (q : Query) (ids : List ShardId) (r : PlanRun) (ps : List ShardPlan) : Prop :=
  start splitPlanner.lookupContext q = .ok r ∧
    (PlanStream.lookup r).drain.1 = ps.map .ok ∧ ps.map (·.shard) = ids

theorem exists_map_ok {es : List (Except PlanError ShardPlan)} {ids : List ShardId}
    (h : (es.map fun p => p.toOption.map (·.shard)) = ids.map some) :
    ∃ ps : List ShardPlan, es = ps.map .ok ∧ ps.map (·.shard) = ids := by
  induction es generalizing ids with
  | nil => exact ⟨[], rfl, (List.map_eq_nil_iff.mp h.symm).symm⟩
  | cons e es ih =>
    cases ids with
    | nil => cases h
    | cons id ids =>
      obtain ⟨hid, hrest⟩ := List.cons.inj h
      obtain ⟨ps, rfl, rfl⟩ := ih hrest
      cases e with
      | error e => cases hid
      | ok p => exact ⟨p :: ps, rfl, congrArg (· :: _) (Option.some.inj hid)⟩

theorem exists_plans {ids : List ShardId}
    (h : (start splitPlanner.lookupContext q).toOption.map (fun run =>
      (PlanStream.lookup run).drain.1.map fun p => p.toOption.map (·.shard)) =
        some (ids.map some)) : ∃ r ps, Plans q ids r ps := by
  obtain ⟨run, hrun, h⟩ := exists_of_map_toOption h
  obtain ⟨ps, hps, hids⟩ := exists_map_ok h
  exact ⟨run, ps, hrun, hps, hids⟩

theorem plans_agree_nestedQuery :
    Reorders nestedQuery nestedReversed ∧ ∃ r r' ps ps',
      Plans nestedQuery ["20240102_0", "20240102_1"] r ps ∧
      Plans nestedReversed ["20240102_0", "20240102_1"] r' ps' ∧
      r.context = r'.context ∧ List.Forall₂ ShardPlan.Agree ps ps' := by
  obtain ⟨r, ps, hr⟩ : ∃ r ps, Plans nestedQuery ["20240102_0", "20240102_1"] r ps :=
    exists_plans (by decide +kernel)
  obtain ⟨r', ps', hr'⟩ : ∃ r ps, Plans nestedReversed ["20240102_0", "20240102_1"] r ps :=
    exists_plans (by decide +kernel)
  exact ⟨reorders_nestedQuery, r, r', ps, ps', hr, hr',
    plans_agree_of_reorders splitPlanner reorders_nestedQuery hr.1 hr'.1 hr.2.1 hr'.2.1⟩

end PlanRun

end ShardedSearch
