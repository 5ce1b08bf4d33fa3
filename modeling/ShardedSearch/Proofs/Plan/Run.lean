import ShardedSearch.Plan.Route
import ShardedSearch.Proofs.Merge.Stream

/-! # What runs hand out

A run over a root stream with a listing hands out the plans of its candidates in order, and
then ends.
-/

namespace ShardedSearch

open Merge (Stream)

namespace PlanRun

variable {r : PlanRun} {cs : List Candidate}

/-- A run that is neither over nor failed, with the candidates that are left. -/
def Emits (r : PlanRun) (cs : List Candidate) : Prop :=
  ∃ root, r.root = some root ∧ root.Emits cs ∧ r.raised = none ∧ r.closed = false

def plansOf (c : PlanConfig) (cs : List Candidate) : List ShardPlan :=
  cs.filterMap (ShardPlan.ofCandidate? c)

theorem nextWithin_of_emits {n : Nat} (h : r.Emits cs) (hn : cs.length < n) :
    (∃ p r' cs', r.nextWithin n = (some (.ok p), r') ∧ r'.Emits cs' ∧ r'.config = r.config ∧
      plansOf r.config cs = p :: plansOf r.config cs') ∨
    ((r.nextWithin n).1 = none ∧ plansOf r.config cs = []) := by
  induction n generalizing r cs with
  | zero => simp at hn
  | succ n ih =>
    obtain ⟨root, hroot, he, hraised, hclosed⟩ := h
    obtain ⟨root', hadvance, he'⟩ := Stream.advance_of_emits he
    rw [nextWithin]
    simp only [hroot, hraised, hclosed, hadvance, Raising.value_pure, Raising.first?,
      Raising.errors_pure, List.head?_nil, Bool.false_eq_true, if_false]
    cases cs with
    | nil => exact .inr ⟨rfl, rfl⟩
    | cons c cs =>
      simp only [List.head?_cons]
      cases hp : ShardPlan.ofCandidate? r.config c with
      | some p =>
        refine .inl ⟨p, _, cs, rfl, ⟨root', rfl, he', rfl, rfl⟩, rfl, ?_⟩
        rw [plansOf, List.filterMap_cons_some hp]
        rfl
      | none =>
        rw [plansOf, List.filterMap_cons_none hp]
        exact ih ⟨root', rfl, he', rfl, rfl⟩ (Nat.lt_of_succ_lt_succ hn)

theorem length_le_remaining (h : r.Emits cs) : cs.length ≤ r.remaining := by
  obtain ⟨root, hroot, he, -⟩ := h
  rw [remaining, hroot]
  exact Stream.remaining_of_emits he

theorem take_of_emits {n : Nat} (h : r.Emits cs) (hn : (plansOf r.config cs).length < n) :
    ((PlanStream.lookup r).take n).1 = (plansOf r.config cs).map .ok := by
  induction n generalizing r cs with
  | zero => simp at hn
  | succ n ih =>
    rw [PlanStream.take, PlanStream.next, next]
    rcases nextWithin_of_emits h (Nat.lt_succ_of_le (length_le_remaining h)) with
      ⟨p, r', cs', hnext, he, hc, hplans⟩ | ⟨hnext, hplans⟩
    · rw [hplans] at hn ⊢
      rw [← hc] at hn
      have htail := ih he (Nat.lt_of_succ_lt_succ hn)
      simp only [hnext, htail, hc, List.map_cons]
    · rw [hplans]
      simp only [hnext]
      rfl

theorem drain_of_emits (h : r.Emits cs) :
    (PlanStream.lookup r).drain.1 = (plansOf r.config cs).map .ok := by
  apply take_of_emits h
  have hle := length_le_remaining h
  have := List.length_filterMap_le (ShardPlan.ofCandidate? r.config) cs
  change (cs.filterMap _).length < r.remaining + 2
  omega

theorem drain_of_root_eq_none (h : r.root = none) (hraised : r.raised = none) :
    (PlanStream.lookup r).drain.1 = [] := by
  have hnext : r.next.1 = none := by
    rw [next, nextWithin]
    simp only [hraised, h]
    split <;> rfl
  rw [PlanStream.drain, PlanStream.take, PlanStream.next]
  cases hr : r.next with
  | mk p r' =>
    rw [hr] at hnext
    obtain rfl : p = none := hnext
    rfl

/-! ### Starting a run -/

variable {x : LookupContext} {q : Query} {root : Stream}

theorem flatten_of_prepare {maxDepth : Nat} {tree : Query} (h : q.prepare maxDepth = .ok tree) :
    tree = q.flatten := by
  simp only [Query.prepare] at h
  split at h
  · cases h
  · exact (Except.ok.inj h).symm

theorem exists_of_bind_eq_ok {ε α β : Type} {m : Except ε α} {f : α → Except ε β} {b : β}
    (h : m >>= f = .ok b) : ∃ a, m = .ok a ∧ f a = .ok b := by
  cases m with
  | error => cases h
  | ok a => exact ⟨a, rfl, h⟩

theorem exists_of_map_eq_ok {ε α β : Type} {m : Except ε α} {f : α → β} {b : β}
    (h : f <$> m = .ok b) : ∃ a, m = .ok a ∧ f a = b := by
  cases m with
  | error => cases h
  | ok a => exact ⟨a, rfl, Except.ok.inj h⟩

theorem eq_ok_of_mapError {ε ε' α : Type} {m : Except ε α} {f : ε → ε'} {a : α}
    (h : m.mapError f = .ok a) : m = .ok a := by
  cases m with
  | error => cases h
  | ok b => rw [Except.ok.inj h]

theorem exists_of_map_toOption {ε α β : Type} {m : Except ε α} {f : α → β} {b : β}
    (h : m.toOption.map f = some b) : ∃ a, m = .ok a ∧ f a = b := by
  cases m with
  | error => cases h
  | ok a => exact ⟨a, rfl, Option.some.inj h⟩

theorem eq_of_start (h : start x q = .ok r) :
    ∃ root, (Lookup.rootOf x q.flatten).run.value = .ok root ∧
      r = ⟨x.config, if rootContext q.flatten root.context = .present then some root else none,
        rootContext q.flatten root.context, (Lookup.rootOf x q.flatten).run.first?, false⟩ := by
  obtain ⟨tree, htree, h⟩ := exists_of_bind_eq_ok h
  obtain rfl := flatten_of_prepare (eq_ok_of_mapError htree)
  obtain ⟨root, hroot, h⟩ := exists_of_bind_eq_ok h
  exact ⟨root, hroot, (Except.ok.inj h).symm⟩

theorem exists_start {tree : Query} (hprep : q.prepare x.config.settings.lookup.maxDepth = .ok tree)
    (hroot : Lookup.rootOf x q.flatten = pure root) : ∃ run, start x q = .ok run := by
  obtain rfl := flatten_of_prepare hprep
  cases hstart : start x q with
  | ok run => exact ⟨run, rfl⟩
  | error e =>
    rw [start, hprep] at hstart
    simp only [Except.mapError, bind, Except.bind, hroot] at hstart
    cases hstart

theorem emits_of_start {cs : List Candidate} (h : start x q = .ok r)
    (hroot : Lookup.rootOf x q.flatten = pure root)
    (hp : rootContext q.flatten root.context = .present) (hcs : root.Emits cs) :
    r.Emits cs ∧ r.context = .present ∧ r.config = x.config := by
  obtain ⟨root', hvalue, rfl⟩ := eq_of_start h
  rw [hroot] at hvalue
  obtain rfl : root = root' := Except.ok.inj hvalue
  rw [hroot, hp]
  exact ⟨⟨root, rfl, hcs, rfl, rfl⟩, rfl, rfl⟩

end PlanRun

/-- The route of a query is that of its flat form. -/
theorem Planner.plan_cases {p : Planner} {q : Query} {s : PlanStream} (h : p.plan q = .ok s) :
    (p.usesPruning q.flatten = true ∧
      ∃ run, DayRun.start p.store p.config q.flatten = .ok run ∧ s = .pruned run) ∨
    (p.usesPruning q.flatten = false ∧
      ∃ run, PlanRun.start p.lookupContext q.flatten = .ok run ∧ s = .lookup run) := by
  obtain ⟨tree, htree, hroute⟩ := PlanRun.exists_of_bind_eq_ok h
  obtain rfl := PlanRun.flatten_of_prepare (PlanRun.eq_ok_of_mapError htree)
  split at hroute
  · next huses =>
    obtain ⟨run, hrun, rfl⟩ := PlanRun.exists_of_map_eq_ok hroute
    exact .inl ⟨huses, run, PlanRun.eq_ok_of_mapError hrun, rfl⟩
  · next huses =>
    obtain ⟨run, hrun, rfl⟩ := PlanRun.exists_of_map_eq_ok hroute
    exact .inr ⟨Bool.eq_false_iff.mpr huses, run, hrun, rfl⟩

end ShardedSearch
