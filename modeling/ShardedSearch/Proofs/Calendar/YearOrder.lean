import ShardedSearch.Proofs.Calendar.Text

/-! # Years as text

Years of four digits are written without a sign and all others with one. So the text of a year is
not always below that of the next: a plus sign is below every digit, a number of more digits
starts with a one again, and years before the year zero are written with the number of years back.
Days are told apart by their texts, and as long as each year between them is written above the one
before, they are ordered as their texts, too.
-/

namespace ShardedSearch.Calendar

variable {n m : Nat} {year : Int} {xs ys : List Char}

/-! ### Numbers of years -/

theorem length_padded_of_le {w width : Nat} (hw : width ≤ w + 1) (hlow : 10 ^ w ≤ n)
    (hhigh : n < 10 ^ (w + 1)) : (padded width n).length = w + 1 := by
  have hle := (Nat.length_toDigits_le_iff (by decide) (Nat.succ_pos w)).mpr hhigh
  have hlt : w < (Nat.toDigits 10 n).length := by
    rcases Nat.eq_zero_or_pos w with rfl | hpos
    · exact Nat.length_toDigits_pos
    · exact Nat.not_le.mp fun h =>
        absurd ((Nat.length_toDigits_le_iff (by decide) hpos).mp h) (Nat.not_lt.mpr hlow)
  rw [padded, List.length_append, List.length_replicate]
  omega

theorem padded_injective {width : Nat} (h : padded width n = padded width m) : n = m := by
  rw [← value_padded width n, h, value_padded]

/-- Numbers of the same length compare as numbers, whatever follows them. -/
theorem padded_append_lt_iff (hl : (padded 4 n).length = (padded 4 m).length) (hne : n ≠ m) :
    padded 4 n ++ xs < padded 4 m ++ ys ↔ n < m := by
  rw [Text.append_lt_append_iff hl, lt_iff_value_lt hl (fun _ => isDigit_of_mem_padded)
    (fun _ => isDigit_of_mem_padded), value_padded, value_padded]
  exact or_iff_left fun h => hne (padded_injective h.1)

theorem length_padded_eq (h : n < 10000 ∧ m < 10000 ∨
    (10000 ≤ n ∧ n < 100000) ∧ 10000 ≤ m ∧ m < 100000 ∨
      (100000 ≤ n ∧ n < 1000000) ∧ 100000 ≤ m ∧ m < 1000000) :
    (padded 4 n).length = (padded 4 m).length := by
  rcases h with ⟨hn, hm⟩ | ⟨⟨hn, hn'⟩, hm, hm'⟩ | ⟨⟨hn, hn'⟩, hm, hm'⟩
  · rw [length_padded (by decide) hn, length_padded (by decide) hm]
  · exact (length_padded_of_le (w := 4) (by decide) hn hn').trans
      (length_padded_of_le (w := 4) (by decide) hm hm').symm
  · exact (length_padded_of_le (w := 5) (by decide) hn hn').trans
      (length_padded_of_le (w := 5) (by decide) hm hm').symm

/-! ### Years and the next -/

/-- Whether the next year is written above a year. -/
def YearAscends (year : Int) : Prop :=
  year ≠ 9999 ∧ year ≠ 99999 ∧ (-1 ≤ year ∨ year = -10000 ∨ year = -100000)

instance (year : Int) : Decidable (YearAscends year) := inferInstanceAs (Decidable (_ ∧ _))

theorem yearText_of_short (h : 0 ≤ year ∧ year ≤ 9999) : yearText year = padded 4 year.natAbs :=
  if_pos h

theorem yearText_of_long (h : 9999 < year) : yearText year = '+' :: padded 4 year.natAbs := by
  rw [yearText, if_neg (by omega), if_neg (by omega)]

theorem yearText_of_neg (h : year < 0) : yearText year = '-' :: padded 4 year.natAbs := by
  rw [yearText, if_neg (by omega), if_pos h]

theorem yearText_cases (year : Int) :
    ((0 ≤ year ∧ year ≤ 9999) ∧ yearText year = padded 4 year.natAbs) ∨
      (9999 < year ∧ yearText year = '+' :: padded 4 year.natAbs) ∨
        year < 0 ∧ yearText year = '-' :: padded 4 year.natAbs := by
  rcases Int.lt_or_le year 0 with hneg | hpos
  · exact .inr (.inr ⟨hneg, yearText_of_neg hneg⟩)
  · rcases Int.lt_or_le 9999 year with hlong | hshort
    · exact .inr (.inl ⟨hlong, yearText_of_long hlong⟩)
    · exact .inl ⟨⟨hpos, hshort⟩, yearText_of_short ⟨hpos, hshort⟩⟩

theorem signed_lt_iff {sign : Char} (hl : (padded 4 n).length = (padded 4 m).length)
    (hne : n ≠ m) : (sign :: padded 4 n) ++ xs < (sign :: padded 4 m) ++ ys ↔ n < m := by
  rw [List.cons_append, List.cons_append, List.cons_lt_cons_iff, padded_append_lt_iff hl hne]
  simp

theorem yearText_append_lt_iff_of_starts {start cs ds : List Char} {c d : Char} {year' : Int}
    (h : yearText year = start ++ c :: cs) (h' : yearText year' = start ++ d :: ds) (hne : c ≠ d) :
    yearText year ++ xs < yearText year' ++ ys ↔ c < d := by
  rw [h, h', List.append_assoc, List.append_assoc, Text.append_lt_append_iff rfl, List.cons_append,
    List.cons_append, List.cons_lt_cons_iff, or_iff_right (List.lt_irrefl start),
    and_iff_right rfl, or_iff_left fun h => hne h.1]

/-- Where the sign or the number of digits changes, the first characters that differ decide. -/
theorem yearText_append_lt_iff_at_border
    (h : year = -100000 ∨ year = -10000 ∨ year = -1 ∨ year = 9999 ∨ year = 99999) :
    yearText year ++ xs < yearText (year + 1) ++ ys ↔ YearAscends year := by
  rcases h with rfl | rfl | rfl | rfl | rfl
  · have h : yearText (-100000) = ['-'] ++ '1' :: "00000".toList := by decide
    have h' : yearText (-99999) = ['-'] ++ '9' :: "9999".toList := by decide
    exact (yearText_append_lt_iff_of_starts h h' (by decide)).trans (by decide)
  · have h : yearText (-10000) = ['-'] ++ '1' :: "0000".toList := by decide
    have h' : yearText (-9999) = ['-'] ++ '9' :: "999".toList := by decide
    exact (yearText_append_lt_iff_of_starts h h' (by decide)).trans (by decide)
  · have h : yearText (-1) = [] ++ '-' :: "0001".toList := by decide
    have h' : yearText 0 = [] ++ '0' :: "000".toList := by decide
    exact (yearText_append_lt_iff_of_starts h h' (by decide)).trans (by decide)
  · have h : yearText 9999 = [] ++ '9' :: "999".toList := by decide
    have h' : yearText 10000 = [] ++ '+' :: "10000".toList := by decide
    exact (yearText_append_lt_iff_of_starts h h' (by decide)).trans (by decide)
  · have h : yearText 99999 = ['+'] ++ '9' :: "9999".toList := by decide
    have h' : yearText 100000 = ['+'] ++ '1' :: "00000".toList := by decide
    exact (yearText_append_lt_iff_of_starts h h' (by decide)).trans (by decide)

/-- Between the borders the numbers decide, which go down before the year zero. -/
theorem yearText_append_lt_iff (hfirst : firstYear ≤ year) (hlast : year < lastYear) :
    yearText year ++ xs < yearText (year + 1) ++ ys ↔ YearAscends year := by
  have hlow : -262143 ≤ year := hfirst
  have hhigh : year < 262142 := hlast
  by_cases hborder : year = -100000 ∨ year = -10000 ∨ year = -1 ∨ year = 9999 ∨ year = 99999
  · exact yearText_append_lt_iff_at_border hborder
  have hl : (padded 4 year.natAbs).length = (padded 4 (year + 1).natAbs).length :=
    length_padded_eq (by omega)
  have hne : year.natAbs ≠ (year + 1).natAbs := by omega
  unfold YearAscends
  rcases yearText_cases year with ⟨hshort, ht⟩ | ⟨hlong, ht⟩ | ⟨hneg, ht⟩
  · rw [ht, yearText_of_short (by omega), padded_append_lt_iff hl hne]
    omega
  · rw [ht, yearText_of_long (by omega), signed_lt_iff hl hne]
    omega
  · rw [ht, yearText_of_neg (by omega), signed_lt_iff hl hne]
    omega

theorem yearText_ne_signed {sign : Char} (h : 0 ≤ year ∧ year ≤ 9999)
    (hsign : sign.isDigit = false) : yearText year ≠ sign :: xs := by
  intro heq
  have hmem : sign ∈ padded 4 year.natAbs := by
    rw [← yearText_of_short h, heq]
    exact List.mem_cons_self
  rw [isDigit_of_mem_padded hmem] at hsign
  cases hsign

theorem yearText_injective {year' : Int} (h : yearText year = yearText year') : year = year' := by
  rcases yearText_cases year with ⟨hy, ht⟩ | ⟨hy, ht⟩ | ⟨hy, ht⟩ <;>
    rcases yearText_cases year' with ⟨hy', ht'⟩ | ⟨hy', ht'⟩ | ⟨hy', ht'⟩
  · have := padded_injective (ht.symm.trans (h.trans ht'))
    omega
  · exact absurd (h.trans ht') (yearText_ne_signed hy rfl)
  · exact absurd (h.trans ht') (yearText_ne_signed hy rfl)
  · exact absurd (h.symm.trans ht) (yearText_ne_signed hy' rfl)
  · have := padded_injective (List.cons.inj (ht.symm.trans (h.trans ht'))).2
    omega
  · cases (List.cons.inj (ht.symm.trans (h.trans ht'))).1
  · exact absurd (h.symm.trans ht) (yearText_ne_signed hy' rfl)
  · cases (List.cons.inj (ht.symm.trans (h.trans ht'))).1
  · have := padded_injective (List.cons.inj (ht.symm.trans (h.trans ht'))).2
    omega

/-! ### Days -/

namespace Date

variable {b d e : Date}

def monthDayChars (d : Date) : List Char := padded 2 d.monthDay.1 ++ padded 2 d.monthDay.2

theorem chars_eq_append (d : Date) : d.chars = yearText d.year ++ d.monthDayChars :=
  List.append_assoc ..

theorem length_monthDayChars (d : Date) : d.monthDayChars.length = 4 := by
  have hm := monthDay_bounds d
  rw [monthDayChars, List.length_append, length_padded (by decide) (by omega),
    length_padded (by decide) (by omega)]

theorem isDigit_of_mem_monthDayChars {c : Char} (h : c ∈ d.monthDayChars) : c.isDigit = true := by
  rcases List.mem_append.mp h with h | h <;> exact isDigit_of_mem_padded h

theorem value_monthDayChars (d : Date) :
    Nat.ofDigitChars 10 d.monthDayChars 0 = 100 * d.monthDay.1 + d.monthDay.2 := by
  have hm := monthDay_bounds d
  rw [monthDayChars, Nat.ofDigitChars_append,
    Nat.ofDigitChars_eq_ofDigitChars_zero (l := padded 2 d.monthDay.2), value_padded,
    value_padded, length_padded (by decide) (by omega)]

theorem monthDay_lt (hy : d.year = e.year) (h : d.ordinal < e.ordinal) :
    100 * d.monthDay.1 + d.monthDay.2 < 100 * e.monthDay.1 + e.monthDay.2 := by
  have hlt := monthDayFrom_lt (monthLengths e.year) 1 h
  have hd : d.monthDay = monthDayFrom 1 (monthLengths e.year) d.ordinal := by rw [monthDay, hy]
  rw [← hd, ← monthDay] at hlt
  have := monthDay_bounds d
  omega

theorem text_lt_iff_chars_lt : d.text < e.text ↔ d.chars < e.chars := by
  rw [String.lt_iff, text, text, String.toList_ofList, String.toList_ofList]

theorem text_lt_of_year_eq (hy : d.year = e.year) (h : d.ordinal < e.ordinal) :
    d.text < e.text := by
  rw [text_lt_iff_chars_lt, chars_eq_append, chars_eq_append, hy, Text.append_lt_append_iff rfl,
    lt_iff_value_lt (d.length_monthDayChars.trans e.length_monthDayChars.symm)
      (fun _ => isDigit_of_mem_monthDayChars) (fun _ => isDigit_of_mem_monthDayChars),
    value_monthDayChars, value_monthDayChars]
  exact .inr ⟨rfl, monthDay_lt hy h⟩

theorem next?_cases (h : d.next? = some e) :
    (e.year = d.year ∧ e.ordinal = d.ordinal + 1) ∨
      (d.year < lastYear ∧ e.year = d.year + 1 ∧ e.ordinal = 1) := by
  unfold next? at h
  split at h
  · obtain rfl := Option.some.inj h
    exact .inl ⟨rfl, rfl⟩
  · split at h
    · next hy =>
      obtain rfl := Option.some.inj h
      exact .inr ⟨hy, rfl, rfl⟩
    · cases h

/-- The next day is written above a day, unless the next year is not. -/
theorem text_lt_next?_iff (h : d.next? = some e) :
    d.text < e.text ↔ d.year < e.year → YearAscends d.year := by
  rcases next?_cases h with ⟨hy, ho⟩ | ⟨hlast, hy, -⟩
  · refine iff_of_true (text_lt_of_year_eq hy.symm (by omega)) fun hlt => ?_
    omega
  · rw [text_lt_iff_chars_lt, chars_eq_append, chars_eq_append, hy,
      yearText_append_lt_iff d.year_mem.1 hlast]
    exact ⟨fun ha _ => ha, fun ha => ha (Int.lt_succ d.year)⟩

theorem eq_of_number_eq (h : d.number = e.number) : d = e :=
  le_antisymm (le_iff_number_le.mpr (Int.le_of_eq h)) (le_iff_number_le.mpr (Int.le_of_eq h.symm))

theorem next?_ne_none_of_number_lt (h : d.number < e.number) : d.next? ≠ none := by
  intro hnone
  obtain ⟨hy, ho⟩ := next?_eq_none_iff.mp hnone
  have he := e.ordinal_mem
  have hle : e ≤ d := by
    rcases Int.lt_or_eq_of_le e.year_mem.2 with hlt | heq
    · exact le_def.mpr (.inl (hy ▸ hlt))
    · have hyear : e.year = d.year := heq.trans hy.symm
      exact le_def.mpr (.inr ⟨hyear, by rw [ho, ← hyear]; exact he.2⟩)
  have := le_iff_number_le.mp hle
  omega

/-- A later day is written above an earlier one if each year between them is written above the
one before. The induction is on a bound of the number of days between, one day at a time. -/
theorem text_lt_of_number_lt (h : d.number < e.number)
    (hyears : ∀ year, d.year ≤ year → year < e.year → YearAscends year) : d.text < e.text := by
  obtain ⟨n, hn⟩ : ∃ n : Nat, e.number ≤ d.number + n :=
    ⟨(e.number - d.number).toNat, by omega⟩
  induction n generalizing d with
  | zero => omega
  | succ n ih =>
    obtain ⟨c, hc⟩ := Option.ne_none_iff_exists'.mp (next?_ne_none_of_number_lt h)
    have hcd := number_of_next? hc
    have hce : c.year ≤ e.year := year_le_of_le (le_iff_number_le.mpr (by omega))
    have hfirst : d.text < c.text :=
      (text_lt_next?_iff hc).mpr fun hlt => hyears d.year (Int.le_refl _) (by omega)
    rcases Int.lt_or_eq_of_le (show c.number ≤ e.number by omega) with hlt | heq
    · have hdc : d.year ≤ c.year := year_le_of_le (le_iff_number_le.mpr (by omega))
      exact String.lt_trans hfirst
        (ih hlt (fun year hy => hyears year (Int.le_trans hdc hy)) (by omega))
    · rw [← eq_of_number_eq heq]
      exact hfirst

/-- Days are told apart by their texts: the four digits behind the year are month and day. -/
theorem text_injective (h : d.text = e.text) : d = e := by
  have hchars : d.chars = e.chars := String.ofList_injective h
  rw [chars_eq_append, chars_eq_append] at hchars
  obtain ⟨hyear, hmonthDay⟩ := List.append_inj' hchars
    (d.length_monthDayChars.trans e.length_monthDayChars.symm)
  have hy := yearText_injective hyear
  have hvalue : 100 * d.monthDay.1 + d.monthDay.2 = 100 * e.monthDay.1 + e.monthDay.2 := by
    rw [← value_monthDayChars, hmonthDay, value_monthDayChars]
  rcases Nat.lt_trichotomy d.ordinal e.ordinal with hlt | ho | hgt
  · have := monthDay_lt hy hlt
    omega
  · exact ext_iff'.mpr ⟨hy, ho⟩
  · have := monthDay_lt hy.symm hgt
    omega

end Date

end ShardedSearch.Calendar
