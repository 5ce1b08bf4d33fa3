import ShardedSearch.Proofs.Merge.Lockstep

/-! # Draining streams

Taking the candidates of a stream comes to an end, be it the end of the candidates or the
first error that is raised. That error comes with the last candidate that is taken before it.
-/

namespace ShardedSearch

theorem Raising.first?_bind {α β : Type} (x : Raising α) (f : α → Raising β) :
    (x >>= f).first? = x.first?.or (f x.value).first? := by
  rw [first?, errors_bind, List.head?_append]
  rfl

namespace Merge.Stream

variable {s t : Stream} {cs : List Candidate} {e? : Option PlanError} {k n : Nat}

/-- The number of candidates left does not depend on the level of the operations. -/
theorem remaining_within (hs : Settled k s) (hn : k ≤ n) :
    (opsWithin n).remaining s = (opsWithin k).remaining s := by
  induction k generalizing n s with
  | zero => cases hs
  | succ k ih =>
    obtain ⟨n, rfl⟩ := Nat.exists_eq_succ_of_ne_zero (by omega : n ≠ 0)
    have hall : ∀ {ss : List Stream}, (∀ s ∈ ss, Settled k s) →
        (opsWithin n).remainingOfAll ss = (opsWithin k).remainingOfAll ss := fun h =>
      List.foldr_ext _ _ _ fun s hs _ => by rw [ih (h s hs) (Nat.le_of_succ_le_succ hn)]
    cases s with
    | leaf => rfl
    | disjunction d =>
      change d.remaining (opsWithin n) = d.remaining (opsWithin k)
      rw [Disjunction.remaining, hall hs]
      rfl
    | conjunction j =>
      change j.remaining (opsWithin n) = j.remaining (opsWithin k)
      rw [Conjunction.remaining, hall hs.1]
      rfl

theorem remaining_eq (hs : Settled n s) : s.remaining = (opsWithin n).remaining s := by
  obtain ⟨hle, hself⟩ := height_of_settled hs
  exact (remaining_within hself hle).symm

theorem settled_advance (hs : Settled n s) : Settled n s.advance.value.2 := by
  rw [advance_eq hs]
  exact (diminishing n).keeps_advance hs

theorem taken (hs : Settled n s) : s.advance.value.1 = s.head := by
  rw [advance_eq hs, (diminishing n).taken hs]
  cases n with
  | zero => rfl
  | succ n => rfl

theorem advance_of_none (hs : Settled n s) (hnone : s.advance.value.1 = none) :
    s.advance = pure (none, s) := by
  rw [advance_eq hs] at hnone ⊢
  exact (diminishing n).advance_of_none hs ((diminishing n).taken hs ▸ hnone)

theorem remaining_advance {c : Candidate} (hs : Settled n s) (hc : s.advance.value.1 = some c) :
    s.advance.value.2.remaining < s.remaining := by
  rw [remaining_eq (settled_advance hs), remaining_eq hs]
  rw [advance_eq hs] at hc ⊢
  exact (diminishing n).remaining_advance hs c ((diminishing n).taken hs ▸ hc)

theorem resolve_of_settled (hs : Settled n s) : s.resolve = pure s := by
  cases n with
  | zero => cases hs
  | succ n =>
    cases s with
    | leaf l =>
      rw [resolve, Leaf.resolve_of_settled hs]
      rfl
    | _ => rfl

/-- The candidates of a stream up to the first error, which is raised as the last one is
taken. -/
inductive Gives : Stream → List Candidate → Option PlanError → Prop where
  | ended {s : Stream} : s.advance.value.1 = none → s.advance.first? = none → Gives s [] none
  | broken {s : Stream} {c : Candidate} {e : PlanError} :
      s.advance.value.1 = some c → s.advance.first? = some e → Gives s [c] (some e)
  | cons {s : Stream} {c : Candidate} {cs : List Candidate} {e? : Option PlanError} :
      s.advance.value.1 = some c → s.advance.first? = none → Gives s.advance.value.2 cs e? →
      Gives s (c :: cs) e?

theorem exists_gives (hs : Settled n s) : ∃ cs e?, Gives s cs e? := by
  induction hr : s.remaining using Nat.strong_induction_on generalizing s with
  | h r ih =>
    cases hc : s.advance.value.1 with
    | none =>
      have hpure := advance_of_none hs hc
      exact ⟨[], none, .ended hc (by rw [hpure]; rfl)⟩
    | some c =>
      cases he : s.advance.first? with
      | some e => exact ⟨[c], some e, .broken hc he⟩
      | none =>
        obtain ⟨cs, e?, hg⟩ := ih _ (hr ▸ remaining_advance hs hc) (settled_advance hs) rfl
        exact ⟨c :: cs, e?, .cons hc he hg⟩

theorem length_of_gives (hs : Settled n s) (h : Gives s cs e?) : cs.length ≤ s.remaining := by
  induction h with
  | ended => exact Nat.zero_le _
  | broken hc => exact Nat.succ_le_of_lt (Nat.zero_lt_of_lt (remaining_advance hs hc))
  | cons hc _ _ ih => exact Nat.succ_le_of_lt ((ih (settled_advance hs)).trans_lt
      (remaining_advance hs hc))

theorem first?_take_of_gives (h : Gives s cs e?) (hn : cs.length < n) :
    (s.take n).first? = e? := by
  induction h generalizing n with
  | ended hc he =>
    obtain ⟨n, rfl⟩ := Nat.exists_eq_succ_of_ne_zero (Nat.ne_zero_of_lt hn)
    rw [take, Raising.first?_bind, he]
    dsimp only
    rw [hc]
    rfl
  | broken hc he =>
    obtain ⟨n, rfl⟩ := Nat.exists_eq_succ_of_ne_zero (Nat.ne_zero_of_lt hn)
    rw [take, Raising.first?_bind, he]
    rfl
  | @cons s c cs e? hc he _ ih =>
    obtain ⟨n, rfl⟩ := Nat.exists_eq_succ_of_ne_zero (Nat.ne_zero_of_lt hn)
    have htail := ih (Nat.lt_of_succ_lt_succ hn)
    rw [take, Raising.first?_bind, he]
    dsimp only
    rw [hc]
    dsimp only
    rw [Raising.first?_bind, htail, Option.none_or]
    exact Option.or_none

theorem first?_drain_of_gives (hs : Settled n s) (h : Gives s cs e?) :
    s.drain.first? = e? := by
  rw [drain, resolve_of_settled hs, pure_bind]
  exact first?_take_of_gives h (Nat.lt_succ_of_le (length_of_gives hs h))

/-! ### Values alone -/

/-- The candidates of a stream, whatever errors are raised. -/
inductive Drains : Stream → List Candidate → Prop where
  | ended {s : Stream} : s.advance.value.1 = none → Drains s []
  | cons {s : Stream} {c : Candidate} {cs : List Candidate} :
      s.advance.value.1 = some c → Drains s.advance.value.2 cs → Drains s (c :: cs)

theorem drains_of_gives (h : Gives s cs e?) (he : e? = none) : Drains s cs := by
  induction h with
  | ended hc => exact .ended hc
  | broken => cases he
  | cons hc _ _ ih => exact .cons hc (ih he)

theorem drains_take (hs : Settled k s) (hn : s.remaining < n) : Drains s (s.take n).value.1 := by
  induction n generalizing s with
  | zero => omega
  | succ n ih =>
    rw [take, Raising.value_bind]
    dsimp only
    cases hc : s.advance.value.1 with
    | none => exact .ended hc
    | some c =>
      have hlt := remaining_advance hs hc
      exact .cons hc (ih (settled_advance hs) (by omega))

theorem drains_drain (hs : Settled n s) : Drains s s.drain.value.1 := by
  rw [drain, resolve_of_settled hs, pure_bind]
  exact drains_take hs (Nat.lt_succ_self _)

end Merge.Stream

end ShardedSearch
