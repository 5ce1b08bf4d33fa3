import ShardedSearch.Lookup.Batches
import ShardedSearch.Proofs.Store.Scanning

/-! # What batches hold

Batches of any size hold exactly what the scanner returns, as long as it does not fail.
-/

namespace ShardedSearch.Lookup.Batches

open Store (Entry Scanner)

variable {s : Scanner} {es : List Entry} {size n : Nat}

theorem readRest_of_returns (h : s.Returns es) (hsize : 0 < size) (hn : es.length < n) :
    readRest size n s = ⟨es, none⟩ := by
  induction n generalizing s es with
  | zero => simp at hn
  | succ n ih =>
    rw [readRest]
    by_cases hle : size ≤ es.length
    · obtain ⟨s', hs', hr, -⟩ := Scanner.readMany_of_returns_of_le h hle
      have hlt : (es.drop size).length < n := by
        rw [List.length_drop]
        omega
      simp only [hs', ih hr hlt, List.take_append_drop]
    · obtain ⟨s', hs'⟩ := Scanner.readMany_of_returns_of_lt h (Nat.not_le.mp hle)
      simp only [hs']

theorem length_le_of_returns (h : s.Returns es) : es.length ≤ s.entries.length := by
  rw [← h.left_eq]
  exact List.length_filter_le ..

/-- The batch size does not matter. -/
theorem read_of_returns (h : s.Returns es) : read size false s = .ok ⟨es, none⟩ := by
  have hsize : 0 < max size 1 := by omega
  rw [read]
  by_cases hle : max size 1 ≤ es.length
  · obtain ⟨s', hs', hr, he⟩ := Scanner.readMany_of_returns_of_le h hle
    have hlt : (es.drop (max size 1)).length < s'.entries.length + 1 :=
      Nat.lt_succ_of_le (length_le_of_returns hr)
    simp only [hs', readRest_of_returns hr hsize hlt, List.take_append_drop, Bool.false_eq_true,
      if_false]
  · obtain ⟨s', hs'⟩ := Scanner.readMany_of_returns_of_lt h (Nat.not_le.mp hle)
    simp only [hs']

/-! ### Scanners that fail -/

/-- Batches hold what a scanner returns, up to a read that fails if there is one. -/
structure HoldsFrom (s : Scanner) (b : Batches) : Prop where
  front : b.entries <+: s.left
  complete : b.late = none → b.entries = s.left
  late : ∀ e ∈ b.late, s.MayFail e

theorem HoldsFrom.append {s' : Scanner} {b : Batches} (h : HoldsFrom s' b)
    (hleft : s.left = es ++ s'.left) (hs : s.Continues s') :
    HoldsFrom s ⟨es ++ b.entries, b.late⟩ where
  front := hleft ▸ (List.prefix_append_right_inj es).mpr h.front
  complete hb := by rw [hleft, ← h.complete hb]
  late e he := (h.late e he).of_continues hs

theorem holdsFrom_readRest (hs : s.entries.Pairwise (·.1 < ·.1)) (hsize : 0 < size)
    (hn : s.left.length < n) : HoldsFrom s (readRest size n s) := by
  induction n generalizing s with
  | zero => simp at hn
  | succ n ih =>
    have hreads := Scanner.reads_readMany size hs
    rw [readRest]
    split
    · next es s' h =>
      rw [h] at hreads
      obtain ⟨hlength, hleft⟩ : es.length = size ∧ s.left = es ++ s'.left := hreads.enough rfl
      refine (ih (hreads.continues.entries ▸ hs) ?_).append hleft hreads.continues
      rw [hleft, List.length_append, hlength] at hn
      omega
    · next es s' h =>
      rw [h] at hreads
      exact ⟨hreads.front, fun _ => hreads.exhausted rfl, fun e he => (nomatch he)⟩
    · next es err s' h =>
      rw [h] at hreads
      refine ⟨List.nil_prefix, fun he => (nomatch he), fun e he => ?_⟩
      obtain rfl := Option.some.inj he
      exact hreads.failed _ rfl

theorem holdsFrom_read {b : Batches} (hs : s.entries.Pairwise (·.1 < ·.1))
    (h : read size false s = .ok b) : HoldsFrom s b := by
  have hreads := Scanner.reads_readMany (max size 1) hs
  rw [read] at h
  split at h
  · next es s' hread =>
    rw [hread] at hreads
    obtain ⟨-, hleft⟩ := hreads.enough rfl
    rw [if_neg Bool.false_ne_true] at h
    obtain rfl := Except.ok.inj h
    have hs' := hreads.continues.entries ▸ hs
    refine (holdsFrom_readRest hs' (by omega) ?_).append hleft hreads.continues
    exact Nat.lt_succ_of_le (List.length_filter_le ..)
  · next es s' hread =>
    rw [hread] at hreads
    obtain rfl := Except.ok.inj h
    exact ⟨hreads.front, fun _ => hreads.exhausted rfl, fun e he => (nomatch he)⟩
  · cases h

theorem exists_read (h : ∀ l ∈ s.readLimit s.table s.range, s.reads + max size 1 ≤ l) :
    ∃ b, read size false s = .ok b := by
  rw [read]
  split
  · exact ⟨_, rfl⟩
  · exact ⟨_, rfl⟩
  · next es err s' hread =>
    exact absurd (by rw [hread]) (Scanner.not_failed_of_le h err)

end ShardedSearch.Lookup.Batches
