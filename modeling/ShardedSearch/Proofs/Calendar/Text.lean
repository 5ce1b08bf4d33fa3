import Mathlib.Algebra.Group.Nat.Defs
import Mathlib.Tactic.Common
import ShardedSearch.Calendar.Text
import ShardedSearch.Proofs.Calendar.Date
import ShardedSearch.Proofs.Text.Order

/-! # Order of dates as text

In years of four digits a day is written with eight digits, and days are ordered as their
texts.
-/

namespace ShardedSearch.Calendar

/-! ### Digits of a fixed width -/

section Digits

variable {c d : Char} {cs ds : List Char} {n width : Nat}

theorem digit_bounds (h : c.isDigit = true) : '0'.toNat ≤ c.toNat ∧ c.toNat ≤ '9'.toNat := by
  rw [Char.isDigit, Bool.and_eq_true, decide_eq_true_eq, decide_eq_true_eq] at h
  exact ⟨UInt32.le_iff_toNat_le.mp h.1, UInt32.le_iff_toNat_le.mp h.2⟩

theorem value_cons (c : Char) (cs : List Char) :
    Nat.ofDigitChars 10 (c :: cs) 0 =
      10 ^ cs.length * (c.toNat - '0'.toNat) + Nat.ofDigitChars 10 cs 0 := by
  rw [Nat.ofDigitChars_cons, Nat.mul_zero, Nat.zero_add, Nat.ofDigitChars_eq_ofDigitChars_zero]

theorem value_lt (h : ∀ c ∈ cs, c.isDigit = true) :
    Nat.ofDigitChars 10 cs 0 < 10 ^ cs.length := by
  induction cs with
  | nil => simp
  | cons c cs ih =>
    have hv := ih fun d hd => h d (List.mem_cons_of_mem c hd)
    have hc := digit_bounds (h c List.mem_cons_self)
    have hten : c.toNat - '0'.toNat + 1 ≤ 10 := by
      simp only [Char.reduceToNat] at hc ⊢
      omega
    rw [value_cons, List.length_cons, Nat.pow_succ]
    calc 10 ^ cs.length * (c.toNat - '0'.toNat) + Nat.ofDigitChars 10 cs 0
      _ < 10 ^ cs.length * (c.toNat - '0'.toNat) + 10 ^ cs.length := Nat.add_lt_add_left hv _
      _ = 10 ^ cs.length * (c.toNat - '0'.toNat + 1) := (Nat.mul_succ ..).symm
      _ ≤ 10 ^ cs.length * 10 := Nat.mul_le_mul_left _ hten

/-- Digits of the same width are ordered as the numbers they write. -/
theorem lt_iff_value_lt (hl : cs.length = ds.length) (hc : ∀ c ∈ cs, c.isDigit = true)
    (hd : ∀ c ∈ ds, c.isDigit = true) :
    cs < ds ↔ Nat.ofDigitChars 10 cs 0 < Nat.ofDigitChars 10 ds 0 := by
  induction cs generalizing ds with
  | nil =>
    obtain rfl := List.eq_nil_of_length_eq_zero hl.symm
    simp
  | cons c cs ih =>
    cases ds with
    | nil => simp at hl
    | cons d ds =>
      have hl' : cs.length = ds.length := Nat.succ.inj hl
      have hcs := fun x hx => hc x (List.mem_cons_of_mem c hx)
      have hds := fun x hx => hd x (List.mem_cons_of_mem d hx)
      have hcv := value_lt hcs
      have hdv := value_lt hds
      have hc0 := digit_bounds (hc c List.mem_cons_self)
      have hd0 := digit_bounds (hd d List.mem_cons_self)
      rw [List.cons_lt_cons_iff, ih hl' hcs hds, value_cons, value_cons, Text.char_lt_iff,
        Text.char_eq_iff, hl']
      rw [hl'] at hcv
      generalize 10 ^ ds.length = p at hcv hdv
      rcases Nat.lt_trichotomy c.toNat d.toNat with h | h | h
      · have hlt : c.toNat - '0'.toNat + 1 ≤ d.toNat - '0'.toNat := by omega
        have hp := Nat.mul_le_mul_left p hlt
        rw [Nat.mul_succ] at hp
        simp only [h, true_or, true_iff]
        omega
      · rw [h]
        omega
      · have hlt : d.toNat - '0'.toNat + 1 ≤ c.toNat - '0'.toNat := by omega
        have hp := Nat.mul_le_mul_left p hlt
        rw [Nat.mul_succ] at hp
        omega

theorem isDigit_of_mem_padded (h : c ∈ padded width n) : c.isDigit = true := by
  rcases List.mem_append.mp h with h | h
  · obtain ⟨-, rfl⟩ := List.mem_replicate.mp h
    rfl
  · exact Nat.isDigit_of_mem_toDigits (by decide) (by decide) h

theorem length_padded (hw : 0 < width) (h : n < 10 ^ width) : (padded width n).length = width := by
  have := (Nat.length_toDigits_le_iff (by decide) hw).mpr h
  rw [padded, List.length_append, List.length_replicate]
  omega

theorem length_padded_le {w : Nat} (hw : 0 < w) (h : n < 10 ^ w) :
    (padded width n).length ≤ width + w := by
  have := (Nat.length_toDigits_le_iff (by decide) hw).mpr h
  rw [padded, List.length_append, List.length_replicate]
  omega

theorem value_padded (width n : Nat) : Nat.ofDigitChars 10 (padded width n) 0 = n := by
  rw [padded, Nat.ofDigitChars_append, Nat.ofDigitChars_replicate_zero, Nat.mul_zero,
    Nat.ofDigitChars_ten_toDigits]

end Digits

namespace Date

variable {d e : Date}

/-! ### Month and day of the month -/

theorem monthDayFrom_bounds {lengths : List Nat} {n : Nat} (month : Nat) (h0 : 1 ≤ n)
    (hn : n ≤ lengths.foldr (· + ·) 0) (hl : ∀ l ∈ lengths, l ≤ 31) :
    (monthDayFrom month lengths n).1 < month + lengths.length ∧
      (monthDayFrom month lengths n).2 ≤ 31 := by
  induction lengths generalizing month n with
  | nil =>
    rw [List.foldr_nil] at hn
    omega
  | cons l ls ih =>
    rw [monthDayFrom]
    split
    · next hle =>
      have := hl l List.mem_cons_self
      simp only [List.length_cons]
      omega
    · next hle =>
      rw [List.foldr_cons] at hn
      have := ih (month + 1) (n := n - l) (by omega) (by omega)
        fun k hk => hl k (List.mem_cons_of_mem l hk)
      rw [List.length_cons]
      omega

theorem le_monthDayFrom (lengths : List Nat) (month n : Nat) :
    month ≤ (monthDayFrom month lengths n).1 := by
  induction lengths generalizing month n with
  | nil => exact Nat.le_refl _
  | cons l ls ih =>
    rw [monthDayFrom]
    split
    · exact Nat.le_refl _
    · exact Nat.le_of_succ_le (ih ..)

theorem monthDayFrom_lt (lengths : List Nat) (month : Nat) {n m : Nat} (h : n < m) :
    (monthDayFrom month lengths n).1 < (monthDayFrom month lengths m).1 ∨
      (monthDayFrom month lengths n).1 = (monthDayFrom month lengths m).1 ∧
        (monthDayFrom month lengths n).2 < (monthDayFrom month lengths m).2 := by
  induction lengths generalizing month n m with
  | nil => exact .inr ⟨rfl, h⟩
  | cons l ls ih =>
    rw [monthDayFrom, monthDayFrom]
    by_cases hn : n ≤ l
    · rw [if_pos hn]
      split
      · exact .inr ⟨rfl, h⟩
      · exact .inl (Nat.lt_of_succ_le (le_monthDayFrom ls (month + 1) (m - l)))
    · rw [if_neg hn, if_neg (by omega)]
      exact ih (month + 1) (by omega)

theorem monthDay_bounds (d : Date) : d.monthDay.1 ≤ 12 ∧ d.monthDay.2 ≤ 31 := by
  have ho := d.ordinal_mem
  rw [← sum_monthLengths] at ho
  have hl : ∀ l ∈ monthLengths d.year, l ≤ 31 := by
    rw [monthLengths]
    split <;> decide
  have := monthDayFrom_bounds 1 ho.1 ho.2 hl
  rw [monthDay]
  simp only [monthLengths, List.length_cons, List.length_nil] at this ⊢
  omega

theorem length_chars_le (d : Date) : d.chars.length ≤ 19 := by
  have hyear : (yearText d.year).length ≤ 11 := by
    have hy := d.year_mem
    have hpadded : (padded 4 d.year.natAbs).length ≤ 4 + 6 :=
      length_padded_le (by decide) (by unfold firstYear lastYear at hy; omega)
    rw [yearText]
    split
    · omega
    · rw [List.length_cons]
      omega
  obtain ⟨hmonth, hday⟩ := monthDay_bounds d
  have hm : (padded 2 d.monthDay.1).length ≤ 2 + 2 := length_padded_le (by decide) (by omega)
  have hd : (padded 2 d.monthDay.2).length ≤ 2 + 2 := length_padded_le (by decide) (by omega)
  rw [chars, List.length_append, List.length_append]
  omega

theorem utf8ByteSize_ofList_le (cs : List Char) :
    (String.ofList cs).utf8ByteSize ≤ 4 * cs.length := by
  induction cs with
  | nil => exact Nat.le_refl 0
  | cons c cs ih =>
    have hcons : String.ofList (c :: cs) = String.singleton c ++ String.ofList cs := by
      rw [← String.toList_inj]
      simp
    have hc := c.utf8Size_le_four
    rw [hcons, String.utf8ByteSize_append, String.utf8ByteSize_singleton, List.length_cons]
    omega

theorem utf8ByteSize_text_lt (d : Date) : d.text.utf8ByteSize < 2 ^ 64 := by
  have hlen := length_chars_le d
  have hsize := utf8ByteSize_ofList_le d.chars
  rw [text]
  omega

/-- A day as a single number: year, month and day of the month. -/
def code (d : Date) : Nat := 10000 * d.year.natAbs + 100 * d.monthDay.1 + d.monthDay.2

/-- Whether the year of a day is written with four digits. -/
def HasShortYear (d : Date) : Prop := 0 ≤ d.year ∧ d.year ≤ 9999

theorem code_lt_of_not_le (hd : d.HasShortYear) (h : ¬ e ≤ d) : d.code < e.code := by
  rw [le_def, not_or, not_and] at h
  have hd' := monthDay_bounds d
  unfold HasShortYear at hd
  unfold code
  by_cases hy : d.year = e.year
  · have hlt := monthDayFrom_lt (monthLengths e.year) 1 (Nat.not_le.mp (h.2 hy.symm))
    have hm : d.monthDay = monthDayFrom 1 (monthLengths e.year) d.ordinal := by
      rw [monthDay, hy]
    rw [← hm, ← monthDay] at hlt
    rw [hy]
    omega
  · have : d.year.natAbs + 1 ≤ e.year.natAbs := by omega
    omega

theorem chars_of_hasShortYear (h : d.HasShortYear) :
    d.chars = padded 4 d.year.natAbs ++ padded 2 d.monthDay.1 ++ padded 2 d.monthDay.2 := by
  rw [chars, yearText, if_pos (show 0 ≤ d.year ∧ d.year ≤ 9999 from h)]

theorem isDigit_of_mem_chars (h : d.HasShortYear) : ∀ c ∈ d.chars, c.isDigit = true := by
  intro c hc
  rw [chars_of_hasShortYear h, List.mem_append, List.mem_append] at hc
  rcases hc with (hc | hc) | hc <;> exact isDigit_of_mem_padded hc

theorem length_chars (h : d.HasShortYear) : d.chars.length = 8 := by
  have hm := monthDay_bounds d
  rw [chars_of_hasShortYear h, List.length_append, List.length_append,
    length_padded (by decide) (by unfold HasShortYear at h; omega),
    length_padded (by decide) (by omega), length_padded (by decide) (by omega)]

theorem value_chars (h : d.HasShortYear) : Nat.ofDigitChars 10 d.chars 0 = d.code := by
  have hm := monthDay_bounds d
  rw [chars_of_hasShortYear h, Nat.ofDigitChars_append,
    Nat.ofDigitChars_eq_ofDigitChars_zero (l := padded 2 d.monthDay.2), Nat.ofDigitChars_append,
    Nat.ofDigitChars_eq_ofDigitChars_zero (l := padded 2 d.monthDay.1), value_padded,
    value_padded, value_padded, length_padded (by decide) (by omega),
    length_padded (by decide) (by omega), code]
  omega

theorem code_lt_iff (hd : d.HasShortYear) (he : e.HasShortYear) : d.code < e.code ↔ ¬ e ≤ d := by
  constructor
  · intro h hle
    rcases Classical.em (d ≤ e) with hde | hde
    · rw [le_antisymm hde hle] at h
      omega
    · have := code_lt_of_not_le he hde
      omega
  · exact code_lt_of_not_le hd

theorem chars_lt_iff (hd : d.HasShortYear) (he : e.HasShortYear) : d.chars < e.chars ↔ ¬ e ≤ d := by
  rw [lt_iff_value_lt ((length_chars hd).trans (length_chars he).symm) (isDigit_of_mem_chars hd)
    (isDigit_of_mem_chars he), value_chars hd, value_chars he, code_lt_iff hd he]

end Date

end ShardedSearch.Calendar
