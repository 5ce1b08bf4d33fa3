import Mathlib.Data.List.Basic
import ShardedSearch.Text.Separator

/-! # Parts of joined texts

Joined texts fall apart into the pieces of each, and a text without the separator is what
comes before it.
-/

namespace ShardedSearch.Text

variable {sep : Char}

theorem pieces_ne_nil (cs : List Char) : pieces sep cs ≠ [] := by
  cases cs with
  | nil => simp [pieces]
  | cons c cs =>
    rw [pieces]
    split
    · simp
    · split <;> simp

theorem pieces_append_cons (cs ds : List Char) :
    pieces sep (cs ++ sep :: ds) = pieces sep cs ++ pieces sep ds := by
  induction cs with
  | nil => simp [pieces]
  | cons c cs ih =>
    rw [List.cons_append, pieces, pieces, ih]
    split
    · rfl
    · cases h : pieces sep cs with
      | nil => exact absurd h (pieces_ne_nil cs)
      | cons p ps => rfl

theorem pieces_intercalate (cs : List Char) (css : List (List Char)) :
    pieces sep (List.intercalate [sep] (cs :: css)) = (cs :: css).flatMap (pieces sep) := by
  induction css generalizing cs with
  | nil => simp
  | cons ds css ih =>
    rw [List.intercalate_cons_cons, List.append_assoc, List.singleton_append, pieces_append_cons,
      ih]
    simp only [List.flatMap_cons]

theorem split_intercalate (sep : Char) {ts : List String} (h : ts ≠ []) :
    split sep ((String.singleton sep).intercalate ts) = ts.flatMap (split sep) := by
  cases ts with
  | nil => exact absurd rfl h
  | cons t ts =>
    rw [split, String.toList_intercalate, String.toList_singleton, List.map_cons,
      pieces_intercalate, ← List.map_cons, List.map_flatMap, List.flatMap_map]
    rfl

theorem cutLast?_eq_none_iff {cs : List Char} : cutLast? sep cs = none ↔ sep ∉ cs := by
  induction cs with
  | nil => simp [cutLast?]
  | cons c cs ih =>
    rw [cutLast?, List.mem_cons, not_or, ← ih]
    split
    · next p hp => exact iff_of_false nofun fun h => nomatch hp.symm.trans h.2
    · next hnone =>
      split
      · next hc => exact iff_of_false nofun fun h => h.1 hc.symm
      · next hc => exact iff_of_true rfl ⟨fun h => hc h.symm, hnone⟩

theorem cutLast?_eq_some_iff {cs as bs : List Char} :
    cutLast? sep cs = some (as, bs) ↔ cs = as ++ sep :: bs ∧ sep ∉ bs := by
  induction cs generalizing as with
  | nil => simp [cutLast?]
  | cons c cs ih =>
    rw [cutLast?]
    cases as with
    | nil =>
      rw [List.nil_append, List.cons.injEq]
      split
      · next p hp =>
        refine iff_of_false (by simp) ?_
        rintro ⟨⟨-, rfl⟩, hbs⟩
        exact absurd (hp.symm.trans (cutLast?_eq_none_iff.mpr hbs)) (Option.some_ne_none p)
      · next hnone =>
        have hcs := cutLast?_eq_none_iff.mp hnone
        split
        · next hc => simpa [hc] using fun he : cs = bs => he ▸ hcs
        · next hc => simp [hc]
    | cons a as =>
      rw [List.cons_append, List.cons.injEq, and_assoc, ← ih]
      split
      · next p hp =>
        rw [hp]
        simp [Prod.ext_iff, and_assoc]
      · next hnone =>
        rw [hnone]
        split <;> simp

/-- The last separator of a text tells its two sides apart. -/
theorem append_separator_injective {as bs as' bs' : List Char}
    (h : as ++ sep :: bs = as' ++ sep :: bs') (hb : sep ∉ bs) (hb' : sep ∉ bs') :
    as = as' ∧ bs = bs' := by
  have hcut : cutLast? sep (as ++ sep :: bs) = some (as, bs) :=
    cutLast?_eq_some_iff.mpr ⟨rfl, hb⟩
  rw [cutLast?_eq_some_iff.mpr ⟨h, hb'⟩] at hcut
  simpa [eq_comm] using hcut

theorem before_append {s : String} (h : sep ∉ s.toList) (t : String) :
    before sep (s ++ String.singleton sep ++ t) = s := by
  have hs : ∀ c ∈ s.toList, decide (c ≠ sep) = true := fun c hc =>
    decide_eq_true fun he => h (he ▸ hc)
  rw [before, String.toList_append, String.toList_append, String.toList_singleton,
    List.append_assoc, List.takeWhile_append_of_pos hs]
  simp

end ShardedSearch.Text
