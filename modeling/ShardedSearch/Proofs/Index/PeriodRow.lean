import ShardedSearch.Proofs.Index.Layout

/-! # Rows of bitmaps

Rows of one period come in the order of their values. From a row of a period on, a range to the
end of the period has the rows of that period and no others.
-/

namespace ShardedSearch.Index.Layout

open Store

variable {period value v w : String} {k start : Key}

theorem periodRow_lt_iff : periodRow period v < periodRow period w ↔ v < w :=
  Text.append_lt_append_left_iff

theorem periodRow_injective (h : periodRow period v = periodRow period w) : v = w :=
  KeyOrder.connected (fun hlt => String.lt_irrefl _ (h ▸ periodRow_lt_iff.mpr hlt))
    fun hlt => String.lt_irrefl _ (h ▸ periodRow_lt_iff.mpr hlt)

theorem periodRow_inj : periodRow period v = periodRow period w ↔ v = w :=
  ⟨periodRow_injective, fun h => h ▸ rfl⟩

theorem ofPeriodRow?_periodRow (h : '\x00' ∉ period.toList) (value : String) :
    ofPeriodRow? (periodRow period value) = some (period, value) := by
  have hcut : Text.cutFirst? '\x00' (period ++ "\x00" ++ value).toList =
      some (period.toList, value.toList) := by
    rw [Text.cutFirst?_eq_some_iff, String.toList_append, String.toList_append, List.append_assoc]
    exact ⟨rfl, h⟩
  rw [ofPeriodRow?, Text.splitFirst?, periodRow, separator, hcut, Option.map_some,
    String.ofList_toList, String.ofList_toList]

theorem exists_periodRow_iff {row : String} :
    (∃ value, row = periodRow period value) ↔ (periodRow period "").toList <+: row.toList := by
  have hrow : ∀ v, (periodRow period v).toList = (periodRow period "").toList ++ v.toList := by
    intro v
    simp [periodRow]
  constructor
  · rintro ⟨value, rfl⟩
    exact ⟨value.toList, (hrow value).symm⟩
  · rintro ⟨cs, hcs⟩
    refine ⟨String.ofList cs, String.toList_inj.mp ?_⟩
    rw [hrow, String.toList_ofList, hcs]

theorem contains_fromTo_iff (hstart : start.row = periodRow period value) :
    (Range.fromTo start (periodRow period "")).contains k = true ↔
      ¬ k < start ∧ ∃ v, k.row = periodRow period v := by
  have hnext : nextChar? '\x00' = some '\x01' := by decide
  have habove : rowAbove? (periodRow period "") =
      some (String.ofList (period.toList ++ ['\x01'])) := by
    have hlist : (periodRow period "").toList = period.toList ++ ['\x00'] := by simp [periodRow]
    rw [rowAbove?, hlist, aboveStart?_append_singleton hnext]
    rfl
  rw [Range.fromTo, habove, Range.contains_halfOpen_iff, and_congr_right_iff, exists_periodRow_iff]
  intro hk
  have hfirst : ¬ start.row < periodRow period "" := by
    rw [hstart, periodRow_lt_iff]
    exact Text.not_lt_empty value
  have hrow : ¬ k.row < periodRow period "" := fun h =>
    hk (.inl (KeyOrder.lt_of_lt_of_not_lt h hfirst))
  have hor := (lt_rowAbove_iff (s := k.row) habove).trans (or_iff_right hrow)
  rw [← hor, Key.lt_def]
  constructor
  · rintro (h | ⟨-, h | ⟨-, h⟩⟩)
    · exact h
    · exact absurd h (Text.not_lt_empty _)
    · exact absurd h (Text.not_lt_empty _)
  · exact .inl

end ShardedSearch.Index.Layout
