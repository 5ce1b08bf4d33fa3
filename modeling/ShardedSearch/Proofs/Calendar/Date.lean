import Mathlib.Tactic.ByContra
import ShardedSearch.Calendar.Date

/-! # Order of dates

Dates are ordered as their numbers, and a range of days has every day between its ends.
-/

namespace ShardedSearch.Calendar.Date

variable {b d e : Date} {n : Nat}

theorem daysBefore_mono {y z : Int} (h : y ≤ z) : daysBefore y ≤ daysBefore z := by
  unfold daysBefore
  omega

theorem le_refl (d : Date) : d ≤ d := le_def.mpr (.inr ⟨rfl, Nat.le_refl _⟩)

theorem le_trans (h : b ≤ d) (h' : d ≤ e) : b ≤ e := by
  rw [le_def] at *
  omega

theorem le_total (d e : Date) : d ≤ e ∨ e ≤ d := by
  rw [le_def, le_def]
  omega

theorem le_antisymm (h : d ≤ e) (h' : e ≤ d) : d = e := by
  rw [le_def] at *
  exact ext_iff'.mpr (by omega)

theorem number_lt_of_not_le (h : ¬ e ≤ d) : d.number < e.number := by
  rw [le_def, not_or, not_and] at h
  have hd := d.ordinal_mem
  have he := e.ordinal_mem
  rw [number, number]
  by_cases hy : d.year = e.year
  · have := h.2 hy.symm
    rw [hy]
    omega
  · have hnext : d.year + 1 ≤ e.year := by omega
    have hmono := daysBefore_mono hnext
    rw [daysBefore_succ] at hmono
    omega

theorem le_iff_number_le : d ≤ e ↔ d.number ≤ e.number := by
  constructor
  · intro h
    by_contra hn
    by_cases he : e ≤ d
    · exact hn (le_antisymm h he ▸ Int.le_refl _)
    · have := number_lt_of_not_le he
      omega
  · intro h
    by_contra hn
    have := number_lt_of_not_le hn
    omega

theorem year_le_of_le (h : d ≤ e) : d.year ≤ e.year := by
  rcases le_def.mp h with h | h <;> omega

theorem next?_eq_none_iff : d.next? = none ↔ d.year = lastYear ∧ d.ordinal = yearLength d.year := by
  have hy := d.year_mem
  have ho := d.ordinal_mem
  unfold next?
  split
  · next h => simp only [reduceCtorEq, false_iff]; omega
  · split
    · next h => simp only [reduceCtorEq, false_iff]; omega
    · simp only [true_iff]; omega

theorem mem_run_iff (h : e.next? ≠ none) : e ∈ b.run n ↔ b ≤ e ∧ e.number < b.number + n := by
  induction n generalizing b with
  | zero =>
    simp only [run, List.not_mem_nil, false_iff, not_and]
    intro hb
    have := le_iff_number_le.mp hb
    omega
  | succ n ih =>
    rw [run]
    cases hb : b.next? with
    | none =>
      simp only [List.not_mem_nil, false_iff, not_and]
      intro hbe
      obtain ⟨hy, ho⟩ := next?_eq_none_iff.mp hb
      have := e.ordinal_mem
      have := e.year_mem
      rw [le_def] at hbe
      refine absurd (next?_eq_none_iff.mpr ?_) h
      have heq : e.year = b.year := by omega
      have hlength := congrArg yearLength heq
      omega
    | some c =>
      have hc := number_of_next? hb
      have hself : e = b ↔ e.number = b.number := by
        constructor
        · exact congrArg number
        · intro hn
          exact le_antisymm (le_iff_number_le.mpr (by omega)) (le_iff_number_le.mpr (by omega))
      rw [List.mem_cons, ih, hself, le_iff_number_le, le_iff_number_le]
      omega

theorem mem_upTo_iff (h : e.next? ≠ none) : e ∈ b.upTo d ↔ b ≤ e ∧ e ≤ d := by
  rw [upTo, mem_run_iff h, daysTo, and_congr_right_iff]
  intro hb
  have := le_iff_number_le.mp hb
  rw [le_iff_number_le]
  omega

theorem next?_ne_none_of_mem_run (h : e ∈ b.run n) : e.next? ≠ none := by
  induction n generalizing b with
  | zero => cases h
  | succ n ih =>
    rw [run] at h
    cases hb : b.next? with
    | none =>
      rw [hb] at h
      cases h
    | some c =>
      rw [hb] at h
      rcases List.mem_cons.mp h with rfl | h
      · rw [hb]
        exact Option.some_ne_none c
      · exact ih h

theorem le_of_mem_upTo (h : e ∈ b.upTo d) : b ≤ e ∧ e ≤ d :=
  (mem_upTo_iff (next?_ne_none_of_mem_run h)).mp h

theorem pairwise_run (b : Date) (n : Nat) : (b.run n).Pairwise (·.number < ·.number) := by
  induction n generalizing b with
  | zero => exact .nil
  | succ n ih =>
    rw [run]
    cases hb : b.next? with
    | none => exact .nil
    | some c =>
      refine List.pairwise_cons.mpr ⟨fun e he => ?_, ih c⟩
      have hc := number_of_next? hb
      have hle := le_iff_number_le.mp ((mem_run_iff (next?_ne_none_of_mem_run he)).mp he).1
      omega

theorem pairwise_upTo (b d : Date) : (b.upTo d).Pairwise (·.number < ·.number) :=
  pairwise_run ..

/-! ### Years -/

theorem number_lt_of_year_lt (h : d.year < e.year) : d.number < e.number :=
  number_lt_of_not_le fun hle => absurd (year_le_of_le hle) (Int.not_le.mpr h)

theorem next?_ne_none_of_year_lt (h : e.year < lastYear) : e.next? ≠ none := fun hnone =>
  absurd (next?_eq_none_iff.mp hnone).1 (Int.ne_of_lt h)

section Years

variable {year : Int}

theorem exists_ofOrdinal? {ordinal : Nat} (hy : firstYear ≤ year ∧ year ≤ lastYear)
    (ho : 1 ≤ ordinal ∧ ordinal ≤ yearLength year) :
    ∃ d, ofOrdinal? year ordinal = some d ∧ d.year = year ∧ d.ordinal = ordinal :=
  ⟨⟨year, ordinal, hy, ho⟩, dif_pos ⟨hy, ho⟩, rfl, rfl⟩

theorem ofOrdinal?_eq_some_iff {ordinal : Nat} :
    ofOrdinal? year ordinal = some d ↔ d.year = year ∧ d.ordinal = ordinal := by
  constructor
  · intro h
    unfold ofOrdinal? at h
    split at h
    · obtain rfl := Option.some.inj h
      exact ⟨rfl, rfl⟩
    · cases h
  · rintro ⟨rfl, rfl⟩
    exact ofOrdinal?_self d

theorem one_le_yearLength (year : Int) : 1 ≤ yearLength year := by
  unfold yearLength
  split <;> decide

theorem exists_firstDay (hy : firstYear ≤ year ∧ year ≤ lastYear) :
    ∃ d, ofMonthDay? year 1 1 = some d ∧ d.year = year ∧ d.ordinal = 1 :=
  exists_ofOrdinal? hy ⟨Nat.le_refl 1, one_le_yearLength year⟩

theorem exists_lastDay (hy : firstYear ≤ year ∧ year ≤ lastYear) :
    ∃ d, ofMonthDay? year 12 31 = some d ∧ d.year = year ∧ d.ordinal = yearLength year := by
  have htotal : ((monthLengths year).take 11).foldr (· + ·) 0 + 31 = yearLength year := by
    rw [← sum_monthLengths]
    cases h : isLeap year <;> simp [monthLengths, h]
  obtain ⟨d, hd⟩ := exists_ofOrdinal? hy ⟨one_le_yearLength year, Nat.le_refl _⟩
  exact ⟨d, by rw [← hd.1, ← htotal]; rfl, hd.2⟩

end Years

theorem getD_filter_not_le :
    ((some b).filter fun d => ¬ d ≤ e).getD e ≤ d ↔ b ≤ d ∧ e ≤ d := by
  by_cases h : b ≤ e
  · have hnone : (some b).filter (fun d => ¬ d ≤ e) = none := by simp [h]
    rw [hnone, Option.getD_none]
    exact ⟨fun hd => ⟨le_trans h hd, hd⟩, fun hd => hd.2⟩
  · have hsome : (some b).filter (fun d => ¬ d ≤ e) = some b := by simp [h]
    rw [hsome, Option.getD_some]
    exact ⟨fun hd => ⟨hd, le_trans ((le_total e b).resolve_right h) hd⟩, fun hd => hd.1⟩

theorem le_getD_filter_not_le :
    d ≤ ((some b).filter fun d => ¬ e ≤ d).getD e ↔ d ≤ b ∧ d ≤ e := by
  by_cases h : e ≤ b
  · have hnone : (some b).filter (fun d => ¬ e ≤ d) = none := by simp [h]
    rw [hnone, Option.getD_none]
    exact ⟨fun hd => ⟨le_trans hd h, hd⟩, fun hd => hd.2⟩
  · have hsome : (some b).filter (fun d => ¬ e ≤ d) = some b := by simp [h]
    rw [hsome, Option.getD_some]
    exact ⟨fun hd => ⟨hd, le_trans hd ((le_total e b).resolve_left h)⟩, fun hd => hd.1⟩

def small : Date := ⟨2024, 2, by decide, by decide⟩

end ShardedSearch.Calendar.Date
