import Mathlib.Data.List.Forall2
import ShardedSearch.Merge.Stream

/-! # Looking up streams together

Each stream is looked up on its own. Whether all of them are depends on the pool, and only on
which of them are pending and which take their worker down.
-/

namespace ShardedSearch

structure WorkerPool.Serves (p : WorkerPool) : Prop where
  accepting : p.accepting = true
  threads_pos : 0 < p.threads

theorem WorkerPool.serves_start (name : String) (threads : Nat) : (start name threads).Serves :=
  ⟨rfl, Nat.le_max_right ..⟩

namespace Merge.Stream

variable {s : Stream} {ss ts : List Stream} {pool : Option WorkerPool} {p : WorkerPool} {n : Nat}

theorem exists_of_bind {α β : Type} {m : Making α} {f : α → Making β} {b : β}
    (h : (m >>= f).run.value = .ok b) :
    ∃ a, m.run.value = .ok a ∧ (f a).run.value = .ok b := by
  rw [ExceptT.run_bind, Raising.value_bind] at h
  cases hm : m.run.value with
  | error e =>
    rw [hm] at h
    cases h
  | ok a =>
    rw [hm] at h
    exact ⟨a, rfl, h⟩

theorem await_of_isLost (h : s.isLost = true) : s.await = throw (.error .abandoned) := by
  rw [await, h, if_pos rfl]

theorem await_of_not_isLost (h : s.isLost = false) : s.await = liftM s.resolve := by
  rw [await, h, if_neg Bool.false_ne_true]

theorem context_of_isLost (h : s.isLost = true) : s.context = .pending := by
  cases s with
  | leaf l =>
    obtain ⟨q, state⟩ := l
    cases state with
    | pending => rfl
    | _ => cases h
  | _ => cases h

theorem isLost_of_ne_pending (h : s.context ≠ .pending) : s.isLost = false :=
  Bool.eq_false_iff.mpr fun hs => h (context_of_isLost hs)

theorem forall₂_of_awaitAll (h : (awaitAll ss).run.value = .ok ts) :
    List.Forall₂ (fun s t => s.await.run.value = .ok t) ss ts := by
  induction ss generalizing ts with
  | nil =>
    obtain rfl := Except.ok.inj h
    exact .nil
  | cons s ss ih =>
    obtain ⟨t, ht, hrest⟩ := exists_of_bind h
    obtain ⟨ts', hts, hrest⟩ := exists_of_bind hrest
    obtain rfl := Except.ok.inj hrest
    exact .cons ht (ih hts)

/-! ### Pools -/

theorem exists_pending_of_starves (h : starves n ss = true) : ∃ s ∈ ss, s.context = .pending := by
  induction ss generalizing n with
  | nil => cases n <;> cases h
  | cons s ss ih =>
    have hrest : starves (n - 1) ss = true ∨ starves n ss = true → _ := fun h =>
      (h.elim ih ih).imp fun t ht => ht.imp_left (List.mem_cons_of_mem s)
    cases n with
    | zero =>
      rcases (Bool.or_eq_true ..).mp h with hs | h
      · exact ⟨s, List.mem_cons_self, of_decide_eq_true hs⟩
      · exact hrest (.inr h)
    | succ n =>
      rw [starves] at h
      split at h
      · exact hrest (.inl h)
      · exact hrest (.inr h)

/-- Streams are left in a queue only if a worker is lost. -/
theorem exists_isLost_of_starves (hn : 0 < n) (h : starves n ss = true) :
    ∃ s ∈ ss, s.isLost = true := by
  obtain ⟨n, rfl⟩ := Nat.exists_eq_succ_of_ne_zero (Nat.ne_of_gt hn)
  induction ss with
  | nil => cases h
  | cons s ss ih =>
    cases hs : s.isLost with
    | true => exact ⟨s, List.mem_cons_self, hs⟩
    | false =>
      rw [starves, hs] at h
      obtain ⟨t, ht, hlost⟩ := ih h
      exact ⟨t, List.mem_cons_of_mem s ht, hlost⟩

/-- Streams that a pool treats alike. -/
def QueuedAlike (s t : Stream) : Prop :=
  s.isLost = t.isLost ∧ (s.context = .pending ↔ t.context = .pending)

theorem starves_congr (h : List.Forall₂ QueuedAlike ss ts) (n : Nat) :
    starves n ss = starves n ts := by
  induction h generalizing n with
  | nil => cases n <;> rfl
  | cons hst _ ih =>
    cases n with
    | zero => rw [starves, starves, decide_eq_decide.mpr hst.2, ih]
    | succ n => rw [starves, starves, hst.1, ih]

theorem obstacle?_congr (h : List.Forall₂ QueuedAlike ss ts) (pool : Option WorkerPool) :
    obstacle? pool ss = obstacle? pool ts := by
  have hany : ∀ p : Stream → Bool, (∀ s t, QueuedAlike s t → p s = p t) → ss.any p = ts.any p := by
    intro p hp
    clear pool
    induction h with
    | nil => rfl
    | cons hst _ ih => rw [List.any_cons, List.any_cons, hp _ _ hst, ih]
  cases pool with
  | none => rw [obstacle?, obstacle?, hany _ fun _ _ hst => hst.1]
  | some p =>
    rw [obstacle?, obstacle?, starves_congr h, hany _ fun _ _ hst => decide_eq_decide.mpr hst.2]

theorem resolveAll_of_obstacle?_eq_none (h : obstacle? pool ss = none) :
    resolveAll pool ss = awaitAll ss := by
  rw [resolveAll, h]

theorem resolveAll_of_ne_pending (h : ∀ s ∈ ss, s.context ≠ .pending) :
    resolveAll pool ss = awaitAll ss := by
  have hnone : ∀ s ∈ ss, ¬ decide (s.context = .pending) = true := fun s hs =>
    by simpa using h s hs
  have hlost : ¬ ss.any isLost = true := fun hany => by
    obtain ⟨s, hs, hl⟩ := List.any_eq_true.mp hany
    exact h s hs (context_of_isLost hl)
  have hstarves : ∀ n, ¬ starves n ss = true := fun n hn => by
    obtain ⟨s, hs, hp⟩ := exists_pending_of_starves hn
    exact h s hs hp
  refine resolveAll_of_obstacle?_eq_none ?_
  cases pool with
  | none => rw [obstacle?, if_neg hlost]
  | some p =>
    rw [obstacle?, if_neg (hstarves _), if_neg (List.any_eq_true.not.mpr fun ⟨s, hs, hp⟩ =>
      hnone s hs hp), ite_self]

/-- Only a lost worker is in the way of look-ups on a pool that takes them. -/
theorem exists_isLost_of_obstacle? {f : Failure} (hp : p.Serves)
    (h : obstacle? (some p) ss = some f) : ∃ s ∈ ss, s.isLost = true := by
  rw [obstacle?, if_pos hp.accepting] at h
  split at h
  · next hstarves => exact exists_isLost_of_starves hp.threads_pos hstarves
  · cases h

theorem forall₂_of_resolveAll (h : (resolveAll pool ss).run.value = .ok ts) :
    List.Forall₂ (fun s t => s.await.run.value = .ok t) ss ts := by
  rw [resolveAll] at h
  split at h
  · cases h
  · exact forall₂_of_awaitAll h

end Merge.Stream

end ShardedSearch
