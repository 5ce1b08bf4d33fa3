import ShardedSearch.Proofs.Calendar.Range
import ShardedSearch.Proofs.Plan.Run

/-! # Days of a configuration

A run compares days as texts, a configuration just its two dates. The days between them, as
text, ascend, start and end with the texts of the dates and are as many as counted if both dates
are given by years without a sign. With a sign there are years whose text is below that of the
year before, and the calendar may end.
-/

namespace ShardedSearch

open PlanRun (exists_of_bind_eq_ok exists_of_map_toOption)

namespace Calendar

/-! ### Years without a sign -/

section Reading

variable {n : Nat} {year : Int} {cs rest : List Char} {s : String} {d : Date}

theorem takeNumber_lt {width : Nat} (h : takeNumber width cs = .ok (n, rest)) :
    n < 10 ^ width := by
  unfold takeNumber at h
  split at h
  · cases h
  · next c left =>
    split at h
    · obtain ⟨rfl, -⟩ := Prod.mk.inj (Except.ok.inj h)
      have hdigits : ∀ a ∈ ((c :: left).take width).takeWhile Char.isDigit, a.isDigit = true :=
        List.all_eq_true.mp List.all_takeWhile
      exact Nat.lt_of_lt_of_le (value_lt hdigits) (Nat.pow_le_pow_right (by decide)
        (Nat.le_trans (List.takeWhile_prefix _).length_le (List.length_take_le ..)))
    · cases h

/-- Whether characters start with no sign, blanks aside. -/
def IsUnsigned (cs : List Char) : Prop :=
  (Text.trimStart cs).head? ≠ some '-' ∧ (Text.trimStart cs).head? ≠ some '+'

instance (cs : List Char) : Decidable (IsUnsigned cs) := inferInstanceAs (Decidable (_ ∧ _))

theorem takeYear_bounds (h : takeYear cs = .ok (year, rest)) (hcs : IsUnsigned cs) :
    0 ≤ year ∧ year ≤ 9999 := by
  unfold takeYear at h
  dsimp only at h
  split at h
  · next hminus => exact absurd (by rw [hminus]; rfl) hcs.1
  · next hplus => exact absurd (by rw [hplus]; rfl) hcs.2
  · obtain ⟨⟨n, left⟩, hn, h⟩ := exists_of_bind_eq_ok h
    obtain ⟨read, hread, h⟩ := exists_of_bind_eq_ok h
    obtain rfl := Except.ok.inj hread
    have hlt := takeNumber_lt hn
    dsimp only at h
    split at h
    · have := (Prod.mk.inj (Except.ok.inj h)).1
      omega
    · cases h

namespace Date

theorem year_of_ofMonthDay? {month day : Nat} (h : ofMonthDay? year month day = some d) :
    d.year = year := by
  unfold ofMonthDay? at h
  split at h
  · split at h
    · exact (ofOrdinal?_eq_some_iff.mp h).1
    · cases h
  · cases h

theorem hasShortYear_of_ofText (h : ofText s = .ok d) (hs : IsUnsigned s.toList) :
    d.HasShortYear := by
  obtain ⟨⟨year, left⟩, hyear, h⟩ := exists_of_bind_eq_ok h
  obtain ⟨⟨month, left⟩, -, h⟩ := exists_of_bind_eq_ok h
  obtain ⟨⟨day, left⟩, -, h⟩ := exists_of_bind_eq_ok h
  have hd : d.year = year := by
    dsimp only at h
    split at h
    · cases h
    · split at h
      · next hmonthDay =>
        obtain rfl := Except.ok.inj h
        exact year_of_ofMonthDay? hmonthDay
      · cases h
  have := takeYear_bounds hyear hs
  rw [← hd] at this
  exact this

theorem not_isFinal_of_hasShortYear (h : d.HasShortYear) : ¬ d.IsFinal := fun hd => by
  have hlast : d.year = 262142 := hd.1
  have := h.2
  omega

end Date

end Reading

end Calendar

namespace PlanConfig

open Calendar (Date YearAscends IsUnsigned)

variable {r : PlanRequest} {c : PlanConfig}

theorem ofText_of_date {s : String} {d : Date} (h : date s = .ok d) : Date.ofText s = .ok d := by
  unfold date at h
  cases hs : Date.ofText s with
  | error e =>
    rw [hs] at h
    cases h
  | ok e =>
    rw [hs] at h
    obtain rfl := Except.ok.inj h
    rfl

theorem dates_of_request (h : ofRequest r = .ok c) : ∃ first last,
    r.dates = some (first, last) ∧ Date.ofText first = .ok c.first ∧
      Date.ofText last = .ok c.last := by
  unfold ofRequest at h
  split at h
  · next first last hdates =>
    obtain ⟨d, hd, h⟩ := exists_of_bind_eq_ok h
    obtain ⟨e, he, h⟩ := exists_of_bind_eq_ok h
    split at h
    · obtain ⟨-, -, h⟩ := exists_of_bind_eq_ok h
      split at h
      · obtain rfl := Except.ok.inj h
        exact ⟨first, last, hdates, ofText_of_date hd, ofText_of_date he⟩
      · cases h
    · cases h
  · cases h

/-- The days as text are those of a range of days: they ascend from the first to the last day, and
are counted right. -/
structure DaysAgree (c : PlanConfig) : Prop where
  ascending : c.days.Pairwise (· < ·)
  head : c.days.head? = some c.firstDay
  last : c.days.getLast? = some c.lastDay
  length : c.days.length = c.dayCount

/-- In every configuration made the days ascend as text just when all its years but the last are
written below the next one; they start with the first day, end with the last one and are as many
as counted just when that day is not the end of the calendar. With dates that are given without
signs all of it holds. -/
theorem days_agree (h : ofRequest r = .ok c) : ∃ first last,
    r.dates = some (first, last) ∧ Date.ofText first = .ok c.first ∧
      Date.ofText last = .ok c.last ∧
    (c.days.Pairwise (· < ·) ↔
      ∀ year, c.first.year ≤ year → year < c.last.year → YearAscends year) ∧
    (c.days.head? = some c.firstDay ↔ ¬ c.first.IsFinal) ∧
    (c.days.getLast? = some c.lastDay ↔ ¬ c.last.IsFinal) ∧
    (c.days.length = c.dayCount ↔ ¬ c.last.IsFinal) ∧
    (IsUnsigned first.toList → IsUnsigned last.toList → c.DaysAgree) := by
  obtain ⟨first, last, hdates, hfirst, hlast⟩ := dates_of_request h
  have hascending := Date.pairwise_text_iff (b := c.first) (e := c.last)
  have hhead := Date.head?_text_iff c.first_le_last
  have hend := Date.getLast?_text_iff c.first_le_last
  have hlength : c.days.length = c.dayCount ↔ ¬ c.last.IsFinal := by
    rw [days, List.length_map]
    exact Date.length_upTo_iff c.first_le_last
  refine ⟨first, last, hdates, hfirst, hlast, hascending, hhead, hend, hlength, fun hf hl => ?_⟩
  have hfirstShort := Date.hasShortYear_of_ofText hfirst hf
  have hlastShort := Date.hasShortYear_of_ofText hlast hl
  have hnotFinal := Date.not_isFinal_of_hasShortYear hlastShort
  refine ⟨hascending.mpr fun year hlow hhigh => ?_,
    hhead.mpr (Date.not_isFinal_of_hasShortYear hfirstShort), hend.mpr hnotFinal,
    hlength.mpr hnotFinal⟩
  have hlow' := hfirstShort.1
  have hhigh' := hlastShort.2
  unfold YearAscends
  omega

def leapRequest : PlanRequest := { dates := some ("20240228", " 2024 3 1") }

theorem exists_of_days {days : List String} {dayCount : Nat}
    (h : (ofRequest r).toOption.map (fun c => (c.days, c.dayCount)) = some (days, dayCount)) :
    ∃ c, ofRequest r = .ok c ∧ c.days = days ∧ c.dayCount = dayCount := by
  obtain ⟨c, hc, hpair⟩ := exists_of_map_toOption h
  obtain ⟨hdays, hcount⟩ := Prod.mk.inj hpair
  exact ⟨c, hc, hdays, hcount⟩

theorem days_agree_leapRequest : ∃ c, ofRequest leapRequest = .ok c ∧
    c.days = ["20240228", "20240229", "20240301"] ∧ c.DaysAgree := by
  have hdays : (ofRequest leapRequest).toOption.map (fun c => (c.days, c.dayCount)) =
      some (["20240228", "20240229", "20240301"], 3) := by
    decide +kernel
  obtain ⟨c, hc, hdays, -⟩ := exists_of_days hdays
  obtain ⟨first, last, hdates, -, -, -, -, -, -, hagree⟩ := days_agree hc
  obtain ⟨rfl, rfl⟩ := Prod.mk.inj (Option.some.inj hdates)
  exact ⟨c, hc, hdays, hagree (by decide) (by decide)⟩

def finalRequest : PlanRequest := { dates := some ("+262142 12 30", "+262142 12 31") }

/-- The days on both sides of the first border between years that are not written in order. -/
def longYearRequest : PlanRequest := { dates := some ("99991231", "+10000 1 1") }

theorem not_daysAgree_finalRequest :
    (∃ c, ofRequest finalRequest = .ok c ∧ c.days = ["+2621421230"] ∧ c.dayCount = 2 ∧
      ¬ c.DaysAgree) ∧
    ∃ c, ofRequest longYearRequest = .ok c ∧ c.days = ["99991231", "+100000101"] ∧
      c.dayCount = 2 ∧ ¬ c.DaysAgree := by
  constructor
  · have hdays : (ofRequest finalRequest).toOption.map (fun c => (c.days, c.dayCount)) =
        some (["+2621421230"], 2) := by
      decide +kernel
    obtain ⟨c, hc, hdays, hcount⟩ := exists_of_days hdays
    refine ⟨c, hc, hdays, hcount, fun hagree => ?_⟩
    have hlength := hagree.length
    rw [hdays, hcount] at hlength
    cases hlength
  · have hdays : (ofRequest longYearRequest).toOption.map (fun c => (c.days, c.dayCount)) =
        some (["99991231", "+100000101"], 2) := by
      decide +kernel
    obtain ⟨c, hc, hdays, hcount⟩ := exists_of_days hdays
    refine ⟨c, hc, hdays, hcount, fun hagree => ?_⟩
    have hascending := hagree.ascending
    rw [hdays] at hascending
    exact absurd hascending (by decide)

end PlanConfig

end ShardedSearch
