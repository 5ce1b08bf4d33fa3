import Mathlib.Data.List.Basic
import ShardedSearch.Index.PeriodEntry
import ShardedSearch.Proofs.Index.Bitmap
import ShardedSearch.Proofs.Order.Collections

/-! # Offsets of period entries

An entry is told by the offsets that each of its terms has. Its bounds enclose all of them.
-/

namespace ShardedSearch.Index

namespace PeriodEntry

variable {e : PeriodEntry} {term : String} {i : Nat}

def hasOffset (e : PeriodEntry) (term : String) (i : Nat) : Bool :=
  (e.get? term).any (·.contains i)

theorem hasOffset_iff : e.hasOffset term i = true ↔
    ∃ b, e.get? term = some b ∧ b.contains i = true := by
  rw [hasOffset, Option.any_eq_true]

@[simp]
theorem hasOffset_ofKey (key term : String) (i : Nat) : (ofKey key).hasOffset term i = false := rfl

theorem any_get?_insert {p : Bitmap → Bool} (hp : ∀ a b, p (a.union b) = (p a || p b))
    (added : String) (b : Bitmap) : ((e.insert added b).get? term).any p =
      ((e.get? term).any p || (decide (term = added) && p b)) := by
  rw [get?, insert, SortedMap.get?_insertWith, get?]
  split
  · next h =>
    subst h
    cases e.terms.get? term <;> simp [hp]
  · next h => simp [h]

theorem mem_values_of_get? {b : Bitmap} (h : e.get? term = some b) : b ∈ e.terms.values :=
  List.mem_map.mpr ⟨_, SortedMap.get?_eq_some_iff.mp h, rfl⟩

theorem isEmpty_iff : e.isEmpty = true ↔ ∀ term i, e.hasOffset term i = false := by
  rw [isEmpty, List.all_eq_true]
  constructor
  · intro h term i
    rw [← Bool.not_eq_true, hasOffset_iff]
    rintro ⟨b, hb, hi⟩
    rw [Bitmap.isEmpty_iff.mp (h b (mem_values_of_get? hb)) i] at hi
    cases hi
  · intro h b hb
    obtain ⟨⟨term, b'⟩, hm, rfl⟩ := List.mem_map.mp hb
    apply Bitmap.isEmpty_iff.mpr
    intro i
    rw [← Bool.not_eq_true]
    intro hi
    have := hasOffset_iff.mpr ⟨b', SortedMap.get?_eq_some_iff.mpr hm, hi⟩
    rw [h] at this
    cases this

theorem bounds_of_hasOffset (h : e.hasOffset term i = true) :
    e.bounds.1 ≤ i ∧ i ≤ e.bounds.2 := by
  obtain ⟨b, hb, hi⟩ := hasOffset_iff.mp h
  have hv := mem_values_of_get? hb
  obtain ⟨m, hm, hle⟩ := Bitmap.exists_min?_le hi
  obtain ⟨n, hn, hge⟩ := Bitmap.exists_le_max? hi
  constructor
  · exact Nat.le_trans (List.min?_getD_le_of_mem (List.mem_filterMap.mpr ⟨b, hv, hm⟩)) hle
  · exact Nat.le_trans hge (List.le_max?_getD_of_mem (List.mem_filterMap.mpr ⟨b, hv, hn⟩))

end PeriodEntry

end ShardedSearch.Index
