import ShardedSearch.Plan.Route
import ShardedSearch.Proofs.DayIndex.Sequencer

/-! # What runs over the day index hand out

A run hands out the plans of its outcomes in the order of their numbers, up to the first entry
that cannot be read.
-/

namespace ShardedSearch

open DayIndex

namespace DayRun

variable {r : DayRun} {xs : List (Except PlanError ShardPlan)} {es : List (Nat × Outcome)}

def plansOver (r : DayRun) (es : List (Nat × Outcome)) : List (Except PlanError ShardPlan) :=
  (r.pending ++ r.unscanned).map .ok ++ plansOfAll r.plansOf (es.map (·.2))

/-- What a run hands out before it has nothing more. -/
inductive Gives : DayRun → List (Except PlanError ShardPlan) → Prop
  | ended {r : DayRun} : r.closed = true → r.pending = [] → Gives r []
  | running {r : DayRun} {es : List (Nat × Outcome)} : r.closed = false → r.outcomes.Holds es →
    Gives r (r.plansOver es)

theorem gives_close (h : r.closed = false) : r.close.Gives [] := by
  rw [close, h]
  exact .ended rfl rfl

section Steps

variable {n : Nat} {p : ShardPlan} {ps : List ShardPlan}

theorem nextWithin_of_pending (h : r.pending = p :: ps) : r.nextWithin n =
    (some (.ok p), { r with pending := ps, statistics := r.statistics.addShard }) := by
  unfold nextWithin
  rw [h]

theorem nextWithin_of_closed (h : r.pending = []) (hclosed : r.closed = true) :
    r.nextWithin n = (none, r) := by
  unfold nextWithin
  rw [h]
  simp only [hclosed, if_true]

theorem nextWithin_of_unscanned (h : r.pending = []) (hopen : r.closed = false)
    (hu : r.unscanned = p :: ps) : r.nextWithin n =
      (some (.ok p), { r with unscanned := ps, statistics := r.statistics.addShard }) := by
  unfold nextWithin
  rw [h, hopen, hu]
  rfl

theorem nextWithin_of_none (h : r.pending = []) (hopen : r.closed = false)
    (hu : r.unscanned = []) (hnone : r.outcomes.next? = none) :
    r.nextWithin n = (none, r.close) := by
  unfold nextWithin
  rw [h, hopen, hu, hnone]
  cases n <;> rfl

theorem nextWithin_of_some {o : Outcome} {rest : Sequencer Outcome} (h : r.pending = [])
    (hopen : r.closed = false) (hu : r.unscanned = [])
    (hsome : r.outcomes.next? = some (o, rest)) : r.nextWithin (n + 1) =
      match r.plansOf o with
      | .ok plans => nextWithin n { r with pending := plans, outcomes := rest }
      | .error e => (some (.error e), r.close) := by
  rw [nextWithin.eq_def]
  dsimp only
  rw [h, hopen, hu, hsome]
  rfl

/-- A step that takes the first of the plans of a run leaves the others. -/
def Advances (r : DayRun) (n : Nat) (xs : List (Except PlanError ShardPlan)) : Prop :=
  (r.nextWithin n).1 = xs.head? ∧ (r.nextWithin n).2.Gives xs.tail

theorem advances_of_ready (hopen : r.closed = false) (h : r.outcomes.Holds es)
    (hready : r.pending ++ r.unscanned ≠ []) : r.Advances n (r.plansOver es) := by
  cases hp : r.pending with
  | cons p ps =>
    rw [Advances, nextWithin_of_pending hp, plansOver, hp]
    exact ⟨rfl, .running (r := { r with pending := ps, statistics := r.statistics.addShard })
      hopen h⟩
  | nil =>
    cases hu : r.unscanned with
    | nil => exact absurd (by rw [hp, hu]; rfl) hready
    | cons p ps =>
      have hrest := Gives.running
        (r := { r with unscanned := ps, statistics := r.statistics.addShard }) hopen h
      rw [Advances, nextWithin_of_unscanned hp hopen hu, plansOver, hp, hu]
      refine ⟨rfl, ?_⟩
      simpa [plansOver, hp] using hrest

/-- The induction is on the outcomes that a step may use up without a plan. -/
theorem advances_of_holds (hopen : r.closed = false) (h : r.outcomes.Holds es)
    (hn : es.length ≤ n) : r.Advances n (r.plansOver es) := by
  induction es generalizing r n with
  | nil =>
    by_cases hready : r.pending ++ r.unscanned = []
    · obtain ⟨hp, hu⟩ := List.append_eq_nil_iff.mp hready
      rw [Advances, nextWithin_of_none hp hopen hu h.nextOf?_eq_none, plansOver, hready]
      exact ⟨rfl, gives_close hopen⟩
    · exact advances_of_ready hopen h hready
  | cons e es ih =>
    by_cases hready : r.pending ++ r.unscanned = []
    · obtain ⟨hp, hu⟩ := List.append_eq_nil_iff.mp hready
      obtain ⟨rest, hnext, hrest⟩ := h.nextOf?
      obtain ⟨m, rfl⟩ := Nat.exists_eq_add_of_le' (Nat.one_le_of_lt hn)
      rw [Advances, nextWithin_of_some hp hopen hu hnext, plansOver, hready, List.map_cons,
        plansOfAll]
      cases hplans : r.plansOf e.2 with
      | error err => exact ⟨rfl, gives_close hopen⟩
      | ok plans =>
        have := ih (r := { r with pending := plans, outcomes := rest }) hopen hrest
          (Nat.le_of_succ_le_succ hn)
        simpa [Advances, plansOver, hu] using this
    · exact advances_of_ready hopen h hready

end Steps

theorem next_of_gives (h : r.Gives xs) : r.Advances r.outcomes.size xs := by
  cases h with
  | running hopen h => exact advances_of_holds hopen h (Nat.le_of_eq h.size_eq.symm)
  | ended hclosed hpending =>
    rw [Advances, nextWithin_of_closed hpending hclosed]
    exact ⟨rfl, .ended hclosed hpending⟩

theorem take_of_gives {n : Nat} (h : r.Gives xs) :
    ((PlanStream.pruned r).take n).1 = xs.take n := by
  induction n generalizing r xs with
  | zero => rfl
  | succ n ih =>
    obtain ⟨hhead, htail⟩ := next_of_gives h
    rw [PlanStream.take, PlanStream.next]
    change r.next.1 = _ at hhead
    change r.next.2.Gives _ at htail
    cases hnext : r.next with
    | mk x r' =>
      rw [hnext] at hhead htail
      obtain rfl : x = xs.head? := hhead
      cases xs with
      | nil => rfl
      | cons x xs =>
        have := ih htail
        simp only [List.head?_cons, List.take_succ_cons, List.cons.injEq, true_and]
        exact this

theorem drain_of_gives (h : r.Gives xs) : (PlanStream.pruned r).drain.1 = xs := by
  rw [PlanStream.drain, take_of_gives h]
  apply List.take_of_length_le
  cases h with
  | ended => exact Nat.zero_le _
  | running hopen h =>
    rw [PlanStream.remaining, left, Sequencer.drain_of_holds h]
    exact Nat.le_add_right _ 2

theorem plansOfAll_map {α : Type} {plansOf : Outcome → Except PlanError (List ShardPlan)}
    {f : α → Outcome} {plans : α → List ShardPlan} {as : List α}
    (h : ∀ a ∈ as, plansOf (f a) = .ok (plans a)) :
    plansOfAll plansOf (as.map f) = (as.flatMap plans).map .ok := by
  induction as with
  | nil => rfl
  | cons a as ih =>
    rw [List.map_cons, plansOfAll, h a List.mem_cons_self,
      ih fun b hb => h b (List.mem_cons_of_mem a hb), List.flatMap_cons, List.map_append]

end DayRun

end ShardedSearch
