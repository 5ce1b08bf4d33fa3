import Mathlib.Logic.Relation
import ShardedSearch.Proofs.DayIndex.Run
import ShardedSearch.Proofs.Plan.Faults

/-! # Closed streams of plans

A closed stream has no more plans. One over the bitmaps has nothing more to hand out, whatever
its scans bring. One over the shard index still hands out an error that was raised before, and
then nothing more.
-/

namespace ShardedSearch

open DayIndex (Outcome Sequencer)
open Relation (ReflTransGen)

namespace PlanRun

variable {r : PlanRun}

@[simp]
theorem raised_close (r : PlanRun) : r.close.raised = r.raised := by
  rw [close]
  split <;> rfl

/-- The next call looks for an error before it looks whether the run was closed. -/
theorem next_close (r : PlanRun) :
    r.close.next.1 = r.raised.map .error ∧ r.close.next.2.IsOver := by
  cases hraised : r.raised with
  | none =>
    have hover := isOver_close hraised
    rw [next_of_isOver hover]
    exact ⟨rfl, hover⟩
  | some e =>
    rw [next, nextWithin, raised_close, hraised]
    exact ⟨rfl, isOver_close rfl⟩

end PlanRun

namespace DayRun

variable {r : DayRun}

/-- Whether a run keeps no plans once it is closed. -/
def IsTidy (r : DayRun) : Prop := r.closed = true → r.pending = []

def IsOver (r : DayRun) : Prop := r.closed = true ∧ r.pending = []

theorem isTidy_of_open (h : r.closed = false) : r.IsTidy := fun hclosed =>
  absurd (h.symm.trans hclosed) Bool.false_ne_true

theorem isOver_close (h : r.IsTidy) : r.close.IsOver := by
  rw [close]
  split
  · next hclosed => exact ⟨hclosed, h hclosed⟩
  · exact ⟨rfl, rfl⟩

theorem next_of_isOver (h : r.IsOver) : r.next = (none, r) := nextWithin_of_closed h.2 h.1

theorem isTidy_nextWithin (n : Nat) (h : r.IsTidy) : (r.nextWithin n).2.IsTidy := by
  fun_induction nextWithin n r with
  | case1 n r plan plans hpending =>
    refine isTidy_of_open (Bool.eq_false_iff.mpr fun hclosed => ?_)
    rw [h hclosed] at hpending
    cases hpending
  | case2 => exact h
  | case3 n r hpending hopen => exact isTidy_of_open (Bool.eq_false_iff.mpr hopen)
  | case4 r hpending hopen hunscanned n o rest hnext plans hplans ih =>
    exact ih (isTidy_of_open (Bool.eq_false_iff.mpr hopen))
  | case5 => exact fun _ => (isOver_close h).2
  | case6 => exact fun _ => (isOver_close h).2

theorem isTidy_of_start {store : Store} {c : PlanConfig} {q : Query}
    (h : start store c q = .ok r) : r.IsTidy := by
  unfold start at h
  split at h
  · cases h
  · dsimp only at h
    split at h <;> exact isTidy_of_open (Except.ok.inj h ▸ rfl)

end DayRun

namespace PlanStream

variable {s t : PlanStream}

/-- What may happen to a stream: it is called, or scans of its days come to other results. -/
inductive Moves : PlanStream → PlanStream → Prop where
  | next (s : PlanStream) : Moves s s.next.2
  | close (s : PlanStream) : Moves s s.close
  | scan (r : DayRun) (outcomes : Sequencer Outcome) :
      Moves (pruned r) (pruned { r with outcomes })

/-- Whether a stream hands out nothing more, whatever happens to it. -/
def IsFinal (s : PlanStream) : Prop := ∀ t, ReflTransGen Moves s t → t.next.1 = none

/-- The error that a stream hands out before anything else. -/
def parked? : PlanStream → Option PlanError
  | lookup r => r.raised
  | pruned _ => none

def IsOver : PlanStream → Prop
  | lookup r => r.IsOver
  | pruned r => r.IsOver

def IsTidy : PlanStream → Prop
  | lookup _ => True
  | pruned r => r.IsTidy

/-! ### Streams that are over -/

theorem next_of_isOver (h : s.IsOver) : s.next = (none, s) := by
  cases s with
  | lookup r => rw [next, PlanRun.next_of_isOver h]
  | pruned r => rw [next, DayRun.next_of_isOver h]

theorem IsOver.move (h : s.IsOver) (hm : Moves s t) : t.IsOver := by
  cases hm with
  | next => rwa [next_of_isOver h]
  | close =>
    cases s with
    | lookup r => exact PlanRun.isOver_close h.1
    | pruned r => exact DayRun.isOver_close fun _ => h.2
  | scan r outcomes => exact h

theorem IsOver.moves (h : s.IsOver) (hm : ReflTransGen Moves s t) : t.IsOver := by
  induction hm with
  | refl => exact h
  | tail _ hm ih => exact ih.move hm

theorem IsOver.isFinal (h : s.IsOver) : s.IsFinal := fun t hm => by
  rw [next_of_isOver (h.moves hm)]

/-! ### Streams that are closed -/

theorem IsTidy.move (h : s.IsTidy) (hm : Moves s t) : t.IsTidy := by
  cases hm with
  | next =>
    cases s with
    | lookup r => trivial
    | pruned r => exact DayRun.isTidy_nextWithin _ h
  | close =>
    cases s with
    | lookup r => trivial
    | pruned r => exact fun _ => (DayRun.isOver_close h).2
  | scan r outcomes => exact h

theorem IsTidy.moves (h : s.IsTidy) (hm : ReflTransGen Moves s t) : t.IsTidy := by
  induction hm with
  | refl => exact h
  | tail _ hm ih => exact ih.move hm

theorem isPruned_of_move (hm : Moves s t) : t.isPruned = s.isPruned := by
  cases hm with
  | next => cases s <;> rfl
  | close => cases s <;> rfl
  | scan => rfl

theorem isPruned_of_moves (hm : ReflTransGen Moves s t) : t.isPruned = s.isPruned := by
  induction hm with
  | refl => rfl
  | tail _ hm ih => exact (isPruned_of_move hm).trans ih

theorem next_close (h : s.IsTidy) :
    s.close.next.1 = s.parked?.map .error ∧ s.close.next.2.IsOver := by
  cases s with
  | lookup r => exact r.next_close
  | pruned r =>
    have hover := DayRun.isOver_close h
    rw [close, next, DayRun.next_of_isOver hover]
    exact ⟨rfl, hover⟩

theorem isOver_close (h : s.IsTidy) (hp : s.parked? = none) : s.close.IsOver := by
  cases s with
  | lookup r => exact PlanRun.isOver_close hp
  | pruned r => exact DayRun.isOver_close h

theorem isTidy_of_plan {p : Planner} {q : Query} (h : p.plan q = .ok s) : s.IsTidy := by
  rcases Planner.plan_cases h with ⟨-, run, hrun, rfl⟩ | ⟨-, run, -, rfl⟩
  · exact DayRun.isTidy_of_start hrun
  · trivial

/-- Whenever a stream is closed, all that it may still hand out is an error that was raised
already. No such error is ever parked with the bitmaps. -/
theorem isFinal_close_iff {p : Planner} {q : Query} (h : p.plan q = .ok s)
    (hm : ReflTransGen Moves s t) :
    (t.close.IsFinal ↔ t.parked? = none) ∧ t.close.next.1 = t.parked?.map .error ∧
      t.close.next.2.IsFinal ∧ (s.isPruned = true → t.close.IsFinal) := by
  have htidy := (isTidy_of_plan h).moves hm
  obtain ⟨hnext, hover⟩ := next_close htidy
  have hfinal : t.close.IsFinal ↔ t.parked? = none := by
    constructor
    · intro hfinal
      rw [hfinal _ .refl] at hnext
      exact Option.map_eq_none_iff.mp hnext.symm
    · exact fun hp => (isOver_close htidy hp).isFinal
  refine ⟨hfinal, hnext, hover.isFinal, fun hpruned => hfinal.mpr ?_⟩
  cases t with
  | lookup r => exact absurd ((isPruned_of_moves hm).trans hpruned) Bool.false_ne_true
  | pruned r => rfl

/-- Plans over three shards, the second of which has a value that cannot be read. -/
def brokenPlanner : Planner where
  store := ⟨.ofList [("shardIndex", PlanRun.threeShards [255])], .empty, fun _ _ => none⟩
  config := (PlanRun.threeShardsContext [255] fun _ _ => none).config
  counts := .ofList []

theorem isFinal_close_brokenPlanner :
    ∃ s, brokenPlanner.plan (.equals "A" "1") = .ok s ∧
      (s.next.2.next.2.close.IsFinal ↔ s.next.2.next.2.parked? = none) ∧
      s.next.2.next.2.close.next.1 = s.next.2.next.2.parked?.map .error ∧
      s.next.2.next.2.close.next.2.IsFinal ∧
      (s.isPruned = true → s.next.2.next.2.close.IsFinal) := by
  have hplanned : (brokenPlanner.plan (.equals "A" "1")).toOption.isSome = true := by
    decide +kernel
  cases hs : brokenPlanner.plan (.equals "A" "1") with
  | error e =>
    rw [hs] at hplanned
    cases hplanned
  | ok s => exact ⟨s, rfl, isFinal_close_iff hs (.tail (.single (.next s)) (.next s.next.2))⟩

/-- Closed after its first plan, the run hands out an error. -/
theorem error_after_close_brokenPlanner :
    (brokenPlanner.plan (.equals "A" "1")).toOption.map (fun s =>
      (s.isPruned, s.next.1.map Except.isOk, s.next.2.close.next.1.map Except.isOk)) =
        some (false, some true, some false) := by
  decide +kernel

end PlanStream

end ShardedSearch
