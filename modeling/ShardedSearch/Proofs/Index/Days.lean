import ShardedSearch.Proofs.Calendar.Text
import ShardedSearch.Proofs.Index.Layout

/-! # Shards of days

The text range of the shards between two days has exactly the shards of the days between
them, if the years have four digits.
-/

namespace ShardedSearch

open Calendar (Date)

namespace Index.Layout

variable {d first last : Date} {n : Nat} {id : ShardId}

theorem toList_ofDay (day : String) (n : Nat) :
    (Shard.ofDay day n).toList = day.toList ++ '_' :: Nat.toDigits 10 n := by
  rw [Shard.ofDay, String.toList_append, String.toList_append, Nat.toString_eq_ofList_toDigits,
    List.append_assoc, String.toList_ofList, String.toList_ofList]
  rfl

theorem toList_text (d : Date) : d.text.toList = d.chars := String.toList_ofList

theorem chars_eq_iff (hd : d.HasShortYear) (hf : first.HasShortYear) :
    d.chars = first.chars ↔ d = first := by
  constructor
  · intro h
    have hle : ∀ {a b : Date}, a.HasShortYear → b.HasShortYear → a.chars = b.chars → a ≤ b := by
      intro a b ha hb h
      by_contra hn
      exact List.lt_irrefl _ (h ▸ (Date.chars_lt_iff hb ha).mpr hn)
    exact Date.le_antisymm (hle hd hf h) (hle hf hd h.symm)
  · exact congrArg Date.chars

theorem not_ofDay_lt_iff (hd : d.HasShortYear) (hf : first.HasShortYear) :
    ¬ Shard.ofDay d.text n < first.text ++ "_" ↔ first ≤ d := by
  have hnil : ¬ ('_' :: Nat.toDigits 10 n) < ['_'] := by simp
  rw [String.lt_iff, toList_ofDay, String.toList_append, toList_text, toList_text]
  change ¬ d.chars ++ '_' :: Nat.toDigits 10 n < first.chars ++ ['_'] ↔ _
  rw [Text.append_lt_append_iff ((Date.length_chars hd).trans (Date.length_chars hf).symm),
    Date.chars_lt_iff hd hf, not_or, Decidable.not_not, not_and]
  exact ⟨fun h => h.1, fun h => ⟨h, fun _ => hnil⟩⟩

theorem ofDay_lt_or_prefix_iff (hd : d.HasShortYear) (hl : last.HasShortYear) :
    (Shard.ofDay d.text n < last.text ++ "_" ∨
      (last.text ++ "_").toList <+: (Shard.ofDay d.text n).toList) ↔ d ≤ last := by
  have hlength := (Date.length_chars hd).trans (Date.length_chars hl).symm
  have hnil : ¬ ('_' :: Nat.toDigits 10 n) < ['_'] := by simp
  have hpre : last.chars ++ ['_'] <+: d.chars ++ '_' :: Nat.toDigits 10 n ↔ d = last := by
    rw [← chars_eq_iff hd hl]
    constructor
    · rintro ⟨rest, h⟩
      rw [List.append_assoc] at h
      exact (List.append_inj_left h hlength.symm).symm
    · intro h
      exact ⟨Nat.toDigits 10 n, by rw [h, List.append_assoc]; rfl⟩
  rw [String.lt_iff, toList_ofDay, String.toList_append, toList_text, toList_text]
  change d.chars ++ '_' :: Nat.toDigits 10 n < last.chars ++ ['_'] ∨
    last.chars ++ ['_'] <+: d.chars ++ '_' :: Nat.toDigits 10 n ↔ _
  rw [hpre, Text.append_lt_append_iff hlength, Date.chars_lt_iff hd hl]
  constructor
  · rintro ((h | ⟨-, h⟩) | rfl)
    · exact (Date.le_total d last).resolve_right h
    · exact absurd h hnil
    · exact Date.le_refl d
  · intro h
    by_cases he : last ≤ d
    · exact .inr (Date.le_antisymm h he)
    · exact .inl (.inl he)

/-- The shards in the range are those of the days between its ends. -/
theorem inDays_ofDay_iff (hd : d.HasShortYear) (hf : first.HasShortYear)
    (hl : last.HasShortYear) :
    InDays first.text last.text (Shard.ofDay d.text n) ↔ first ≤ d ∧ d ≤ last := by
  rw [InDays, not_ofDay_lt_iff hd hf, ofDay_lt_or_prefix_iff hd hl]

theorem ofDay_injective {e : Date} {m : Nat} (hd : d.HasShortYear) (he : e.HasShortYear)
    (h : Shard.ofDay d.text n = Shard.ofDay e.text m) : d = e ∧ n = m := by
  have hlist := congrArg String.toList h
  rw [toList_ofDay, toList_ofDay, toList_text, toList_text] at hlist
  obtain ⟨hchars, hdigits⟩ := List.append_inj hlist
    ((Date.length_chars hd).trans (Date.length_chars he).symm)
  refine ⟨(chars_eq_iff hd he).mp hchars, ?_⟩
  have hn := congrArg (Nat.ofDigitChars 10 · 0) (List.cons.inj hdigits).2
  simpa using hn

/-! ### Years of more digits -/

theorem chars_of_neg (h : first.year < 0) : ∃ cs, first.chars = '-' :: cs := by
  rw [Date.chars, Calendar.yearText, if_neg (by omega), if_pos h]
  exact ⟨_, rfl⟩

theorem chars_of_long (h : 9999 < last.year) : ∃ cs, last.chars = '+' :: cs := by
  rw [Date.chars, Calendar.yearText, if_neg (by omega), if_neg (by omega)]
  exact ⟨_, rfl⟩

theorem eq_of_text_eq (hf : first.HasShortYear) (h : d.text = first.text) : d = first := by
  have hchars : d.chars = first.chars := by rw [← toList_text, ← toList_text, h]
  have hdigit : ∀ c ∈ d.chars, c.isDigit = true := hchars ▸ Date.isDigit_of_mem_chars hf
  have hd : d.HasShortYear := by
    constructor
    · by_contra hneg
      obtain ⟨cs, hcs⟩ := chars_of_neg (Int.not_le.mp hneg)
      exact absurd (hdigit '-' (hcs ▸ List.mem_cons_self)) (by decide)
    · by_contra hlong
      obtain ⟨cs, hcs⟩ := chars_of_long (Int.not_le.mp hlong)
      exact absurd (hdigit '+' (hcs ▸ List.mem_cons_self)) (by decide)
  exact (chars_eq_iff hd hf).mp hchars

theorem exists_cons_chars (hf : first.year ≤ 9999) :
    ∃ c cs, first.chars = c :: cs ∧ '+' < c := by
  by_cases h : first.year < 0
  · obtain ⟨cs, hcs⟩ := chars_of_neg h
    exact ⟨'-', cs, hcs, by decide⟩
  · have hs : first.HasShortYear := ⟨by omega, hf⟩
    cases hc : first.chars with
    | nil =>
      have := Date.length_chars hs
      rw [hc] at this
      simp at this
    | cons c cs =>
      have hdigit := Date.isDigit_of_mem_chars hs c (hc ▸ List.mem_cons_self)
      refine ⟨c, cs, rfl, Text.char_lt_iff.mpr ?_⟩
      have := (Calendar.digit_bounds hdigit).1
      simp only [Char.reduceToNat] at this ⊢
      omega

/-- No text is in a range that runs from a year of at most four digits to one of more. -/
theorem not_inDays_of_long (hf : first.year ≤ 9999) (hl : 9999 < last.year) :
    ¬ InDays first.text last.text id := by
  obtain ⟨c, cs, hc, hlt⟩ := exists_cons_chars hf
  obtain ⟨ds, hd⟩ := chars_of_long hl
  rintro ⟨hstart, hstop⟩
  rw [String.lt_iff, String.toList_append, toList_text, hc] at hstart
  rw [String.lt_iff, String.toList_append, toList_text, hd] at hstop
  cases hid : id.toList with
  | nil => simp [hid] at hstart
  | cons x xs =>
    rw [hid, List.cons_append, List.cons_lt_cons_iff, not_or, Text.char_lt_iff] at hstart
    rw [hid, List.cons_append, List.cons_lt_cons_iff, List.cons_prefix_cons, Text.char_lt_iff,
      Text.char_eq_iff, Text.char_eq_iff] at hstop
    rw [Text.char_lt_iff] at hlt
    omega

theorem inDays_ofDay_of_le (hd : d.HasShortYear) (hfirst : first ≤ d) (hlast : d ≤ last)
    (hl : last.year ≤ 9999) : InDays first.text last.text (Shard.ofDay d.text n) := by
  have hd0 : 0 ≤ d.year := hd.1
  have hy := Date.year_le_of_le hfirst
  have hy' := Date.year_le_of_le hlast
  refine ⟨?_, (ofDay_lt_or_prefix_iff hd ⟨by omega, hl⟩).mpr hlast⟩
  by_cases hneg : first.year < 0
  · obtain ⟨cs, hcs⟩ := chars_of_neg hneg
    obtain ⟨c, ds, hds, hc⟩ := exists_cons_chars hd.2
    have hdigit := Date.isDigit_of_mem_chars hd c (hds ▸ List.mem_cons_self)
    have hb := (Calendar.digit_bounds hdigit).1
    rw [String.lt_iff, toList_ofDay, String.toList_append, toList_text, toList_text, hcs, hds,
      List.cons_append, List.cons_append, List.cons_lt_cons_iff, Text.char_lt_iff,
      Text.char_eq_iff]
    simp only [Char.reduceToNat] at hb ⊢
    omega
  · exact (not_ofDay_lt_iff hd ⟨by omega, by omega⟩).mpr hfirst

theorem inDays_ofDay_of_exists (hd : d.HasShortYear) (hfirst : first ≤ d) (hlast : d ≤ last)
    (h : ∃ id, InDays first.text last.text id) :
    InDays first.text last.text (Shard.ofDay d.text n) := by
  have hd9 : d.year ≤ 9999 := hd.2
  have hy := Date.year_le_of_le hfirst
  obtain ⟨id, hid⟩ := h
  refine inDays_ofDay_of_le hd hfirst hlast (Int.not_lt.mp fun hlong => ?_)
  exact not_inDays_of_long (by omega) hlong hid

/-- A day has digits, and a sign in front of some years. -/
theorem not_mem_text (d : Date) {c : Char} (hc : c.isDigit = false) (hminus : c ≠ '-')
    (hplus : c ≠ '+') : c ∉ d.text.toList := by
  have hdigit : ∀ w n, c ∉ Calendar.padded w n := fun w n h =>
    absurd (Calendar.isDigit_of_mem_padded h) (by simp [hc])
  rw [toList_text, Date.chars, List.mem_append, List.mem_append, not_or, not_or]
  refine ⟨⟨?_, hdigit _ _⟩, hdigit _ _⟩
  rw [Calendar.yearText]
  split
  · exact hdigit _ _
  · rw [List.mem_cons, not_or]
    refine ⟨?_, hdigit _ _⟩
    split
    · exact hminus
    · exact hplus

theorem null_not_mem_text (d : Date) : '\x00' ∉ d.text.toList :=
  not_mem_text d (by decide) (by decide) (by decide)

theorem mark_not_mem_text (d : Date) : Shard.mark ∉ d.text.toList :=
  not_mem_text d (by decide) (by decide) (by decide)

theorem null_not_mem_ofDay (d : Date) (n : Nat) :
    '\x00' ∉ (Shard.ofDay d.text n).toList := by
  rw [toList_ofDay, List.mem_append, List.mem_cons, not_or, not_or]
  refine ⟨null_not_mem_text d, by decide, fun h => ?_⟩
  have := Nat.isDigit_of_mem_toDigits (by decide) (by decide) h
  exact absurd this (by decide)

end Index.Layout

end ShardedSearch
