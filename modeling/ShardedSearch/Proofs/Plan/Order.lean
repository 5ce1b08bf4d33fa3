import ShardedSearch.Proofs.Lookup.Order
import ShardedSearch.Proofs.Plan.Basic
import ShardedSearch.Proofs.Plan.Run

/-! # Order of plans

A run hands out plans for shards in the order in which its root stream brings them into view.
-/

namespace ShardedSearch

open Merge (Spacing Stream Track)
open Merge.Stream (Settled diminishing opsWithin)

namespace ShardPlan

theorem ranges_of_make? {c : PlanConfig} {id : ShardId} {q : Query} {counts : Counts}
    {p : ShardPlan} (h : make? c id q counts = some p) :
    p.ranges = rangesOf c.idPattern id :=
  (make?_eq_some_iff.mp h).ranges

end ShardPlan

def PlanStream.shards (n : Nat) (s : PlanStream) : List ShardId :=
  ((s.take n).1.filterMap Except.toOption).map (·.shard)

namespace PlanRun

variable {r : PlanRun} {k n : Nat} {L P : ShardId → Prop} {R : ShardId → ShardId → Prop}

def Tracked (L : ShardId → Prop) (R : ShardId → ShardId → Prop) (k : Nat) (P : ShardId → Prop)
    (r : PlanRun) : Prop :=
  ∀ root, r.root = some root → Track (opsWithin k) (Settled k) L R P root

theorem Tracked.close (h : r.Tracked L R k P) : r.close.Tracked L R k P := by
  rw [PlanRun.close]
  split
  · exact h
  · intro root hroot
    cases hroot

theorem Tracked.advance {root : Stream}
    (h : Track (opsWithin k) (Settled k) L R P root) :
    Track (opsWithin k) (Settled k) L R P root.advance.value.2 ∧
      ∀ c, root.advance.value.1 = some c → L c.shard ∧ P c.shard ∧
        Track (opsWithin k) (Settled k) L R (R c.shard) root.advance.value.2 := by
  rw [Stream.advance_eq h.settled]
  have hmove : Merge.Reaches (opsWithin k) root ((opsWithin k).advance root).value.2 :=
    .single .advance
  refine ⟨h.reaches (diminishing k) hmove, fun c hc => ?_⟩
  rw [(diminishing k).taken h.settled] at hc
  refine ⟨h.spaced.head hc, h.confined.head hc, ?_⟩
  exact (h.reaches (diminishing k) hmove).confine
    (Merge.confined_advance (diminishing k) h.settled h.spaced hc)

theorem config_close (r : PlanRun) : r.close.config = r.config := by
  rw [PlanRun.close]
  split <;> rfl

structure IsPlanOf (L P : ShardId → Prop) (c : PlanConfig) (p : ShardPlan) : Prop where
  listable : L p.shard
  inView : P p.shard
  admitted : c.admits p.shard = true
  ranges : p.ranges = ShardPlan.rangesOf c.idPattern p.shard

/-- A step of a run, with what it hands out; what is left may follow that. -/
structure Continues (L : ShardId → Prop) (R : ShardId → ShardId → Prop) (k : Nat)
    (P : ShardId → Prop) (c : PlanConfig) (o : Option (Except PlanError ShardPlan) × PlanRun) :
    Prop where
  tracked : o.2.Tracked L R k P
  config : o.2.config = c
  plan : ∀ p, o.1 = some (.ok p) → IsPlanOf L P c p ∧ o.2.Tracked L R k (R p.shard)

theorem continues_close (h : r.Tracked L R k P) : Continues L R k P r.config (none, r.close) :=
  ⟨h.close, config_close r, fun _ hp => by cases hp⟩

theorem continues_fail (h : r.Tracked L R k P) (e : PlanError) :
    Continues L R k P r.config (r.fail e) :=
  ⟨Tracked.close (r := { r with raised := none }) h,
    config_close { r with raised := none }, fun _ hp => by cases hp⟩

theorem continues_nextWithin (h : r.Tracked L R k P) :
    Continues L R k P r.config (r.nextWithin n) := by
  induction n generalizing r with
  | zero => exact continues_close h
  | succ n ih =>
    rw [nextWithin]
    split
    · exact continues_fail h _
    · split
      · exact ⟨h, rfl, fun _ hp => by cases hp⟩
      · split
        · exact continues_close h
        · next root hroot =>
          obtain ⟨hself, hbehind⟩ := Tracked.advance (h root hroot)
          have hr' : ∀ {Q raised},
              Track (opsWithin k) (Settled k) L R Q root.advance.value.2 →
              Tracked L R k Q { r with root := some root.advance.value.2, raised := raised } :=
            fun h' root' hroot' => by
              obtain rfl := Option.some.inj hroot'
              exact h'
          dsimp only
          cases hc : root.advance.value.1 with
          | some candidate =>
            dsimp only
            cases hp : ShardPlan.ofCandidate? r.config candidate with
            | some plan =>
              refine ⟨hr' hself, rfl, fun p hp' => ?_⟩
              obtain rfl := Except.ok.inj (Option.some.inj hp')
              obtain ⟨hlist, hmem, hafter⟩ := hbehind candidate hc
              have hshard := ShardPlan.shard_of_make? hp
              rw [← hshard] at hlist hmem hafter
              exact ⟨⟨hlist, hmem, hshard ▸ ShardPlan.admits_of_make? hp,
                hshard ▸ ShardPlan.ranges_of_make? hp⟩, hr' hafter⟩
            | none => exact ih (hr' hself)
          | none =>
            dsimp only
            split
            · exact continues_fail (hr' hself) _
            · exact continues_close (hr' hself)

/-- The plans that a run hands out first are for shards of which each may follow those before. -/
theorem plans_of_take (h : r.Tracked L R k P) (n : Nat) :
    (∀ p ∈ ((PlanStream.lookup r).take n).1.filterMap Except.toOption, IsPlanOf L P r.config p) ∧
      (((PlanStream.lookup r).take n).1.filterMap Except.toOption).Pairwise
        fun p q => R p.shard q.shard := by
  induction n generalizing r P with
  | zero => exact ⟨fun p hp => absurd hp List.not_mem_nil, .nil⟩
  | succ n ih =>
    have hnext : Continues L R k P r.config r.next := continues_nextWithin h
    rw [PlanStream.take, PlanStream.next]
    rcases hr : r.next with ⟨_ | e | p, r'⟩
    · exact ⟨fun p hp => absurd hp List.not_mem_nil, .nil⟩
    · rw [hr] at hnext
      have hrest := ih hnext.tracked
      rw [hnext.config] at hrest
      exact hrest
    · rw [hr] at hnext
      obtain ⟨hp, hafter⟩ := hnext.plan p rfl
      have hrest := (ih hnext.tracked).1
      rw [hnext.config] at hrest
      obtain ⟨hbehind, hpairs⟩ := ih hafter
      exact ⟨List.forall_mem_cons.mpr ⟨hp, hrest⟩,
        List.pairwise_cons.mpr ⟨fun q hq => (hbehind q hq).inView, hpairs⟩⟩

variable {x : LookupContext} {t : Store.Table} {q : Query}

theorem exists_tracked_of_arranged (hR : Spacing L R) (hrun : start x q = .ok r)
    (hx : Lookup.Opens x t)
    (h : ∀ c, Query.IsClauseOf c q.flatten → Lookup.Arranged L R x.config x.counts t c) :
    r.config = x.config ∧ ∃ k, r.Tracked L R k fun _ => True := by
  obtain ⟨root, hroot, rfl⟩ := eq_of_start hrun
  obtain ⟨k, hk⟩ := (Lookup.ordered_rootOf hR hx h hroot).exists_track hR
  refine ⟨rfl, k, fun root' hr => ?_⟩
  dsimp only at hr
  split at hr
  · obtain rfl := Option.some.inj hr
    exact hk k (Nat.le_refl k)
  · cases hr

theorem ascending_of_start (hrun : start x q = .ok r) (hx : Lookup.Opens x t)
    (hfirst : 0 ≤ x.config.first.year) (hlast : x.config.last.year ≤ 9999) (n : Nat) :
    ((PlanStream.lookup r).shards n).Pairwise (· < ·) := by
  obtain ⟨-, k, htracked⟩ := exists_tracked_of_arranged Merge.spacing_lt hrun hx fun c _ =>
    Lookup.arranged_of_years hfirst hlast c
  exact List.pairwise_map.mpr (plans_of_take htracked n).2

end PlanRun

end ShardedSearch
