import ShardedSearch.Proofs.Calendar.YearOrder
import ShardedSearch.Proofs.Order.Collections

/-! # Ranges of days as text

A range of days starts with its first day, ends with its last one and has as many days as their
numbers tell, unless it ends at the end of the calendar: the last day has no successor, and a run
of days stops before it. As texts the days of a range ascend just when its years do.
-/

namespace ShardedSearch.Calendar.Date

variable {b d e : Date} {n : Nat}

def IsFinal (d : Date) : Prop := d.year = lastYear ∧ d.ordinal = yearLength lastYear

instance (d : Date) : Decidable d.IsFinal := inferInstanceAs (Decidable (_ ∧ _))

theorem next?_eq_none_iff_isFinal : d.next? = none ↔ d.IsFinal :=
  next?_eq_none_iff.trans (and_congr_right fun hy => by rw [hy])

theorem isFinal_of_le (h : d ≤ e) (hd : d.IsFinal) : e.IsFinal := by
  have he : e ≤ d := by
    by_contra hn
    exact next?_ne_none_of_number_lt (number_lt_of_not_le hn) (next?_eq_none_iff_isFinal.mpr hd)
  exact le_antisymm h he ▸ hd

/-! ### Ends -/

theorem upTo_eq_nil (h : b.IsFinal) : b.upTo e = [] := by
  rw [upTo]
  cases b.daysTo e with
  | zero => rfl
  | succ n => rw [run, next?_eq_none_iff_isFinal.mpr h]

theorem head?_upTo (hle : b ≤ e) (h : ¬ b.IsFinal) : (b.upTo e).head? = some b := by
  obtain ⟨n, hn⟩ : ∃ n, b.daysTo e = n + 1 := by
    have := le_iff_number_le.mp hle
    exact ⟨(e.number - b.number).toNat, by rw [daysTo]; omega⟩
  obtain ⟨c, hc⟩ := Option.ne_none_iff_exists'.mp (mt next?_eq_none_iff_isFinal.mp h)
  rw [upTo, hn, run, hc]
  rfl

theorem getLast?_upTo (hle : b ≤ e) (h : ¬ e.IsFinal) : (b.upTo e).getLast? = some e := by
  refine (getLast?_eq_some_iff_of_ascending (f := number) (pairwise_upTo b e)).mpr ⟨?_, ?_⟩
  · exact (mem_upTo_iff (mt next?_eq_none_iff_isFinal.mp h)).mpr ⟨hle, le_refl e⟩
  · intro d hd hlt
    have := le_iff_number_le.mp (le_of_mem_upTo hd).2
    omega

theorem not_isFinal_of_mem_upTo (h : d ∈ b.upTo e) : ¬ d.IsFinal := fun hd =>
  next?_ne_none_of_mem_run h (next?_eq_none_iff_isFinal.mpr hd)

/-! ### Length -/

theorem length_run (h : ¬ e.IsFinal) (hn : b.number + n ≤ e.number + 1) : (b.run n).length = n := by
  induction n generalizing b with
  | zero => rfl
  | succ n ih =>
    have hb : ¬ b.IsFinal := fun hb =>
      h (isFinal_of_le (le_iff_number_le.mpr (by omega)) hb)
    obtain ⟨c, hc⟩ := Option.ne_none_iff_exists'.mp (mt next?_eq_none_iff_isFinal.mp hb)
    have hnumber := number_of_next? hc
    rw [run, hc, List.length_cons, ih (by omega)]

theorem length_run_lt (he : e.IsFinal) (hle : b ≤ e) (hn : e.number < b.number + n) :
    (b.run n).length < n := by
  induction n generalizing b with
  | zero =>
    have := le_iff_number_le.mp hle
    omega
  | succ n ih =>
    rw [run]
    cases hb : b.next? with
    | none => exact Nat.succ_pos n
    | some c =>
      have hnumber := number_of_next? hb
      have hne : b.number ≠ e.number := fun heq => by
        rw [eq_of_number_eq heq, next?_eq_none_iff_isFinal.mpr he] at hb
        cases hb
      have hbe := le_iff_number_le.mp hle
      exact Nat.succ_lt_succ (ih (le_iff_number_le.mpr (by omega)) (by omega))

theorem length_upTo_iff (hle : b ≤ e) : (b.upTo e).length = b.daysTo e ↔ ¬ e.IsFinal := by
  have hbe := le_iff_number_le.mp hle
  constructor
  · intro hlength he
    have hlt : (b.upTo e).length < b.daysTo e := length_run_lt he hle (by rw [daysTo]; omega)
    omega
  · exact fun he => length_run he (by rw [daysTo]; omega)

/-! ### Texts -/

theorem head?_text_iff (hle : b ≤ e) :
    ((b.upTo e).map text).head? = some b.text ↔ ¬ b.IsFinal := by
  constructor
  · intro hhead hb
    rw [upTo_eq_nil hb] at hhead
    cases hhead
  · intro hb
    rw [List.head?_map, head?_upTo hle hb]
    rfl

theorem getLast?_text_iff (hle : b ≤ e) :
    ((b.upTo e).map text).getLast? = some e.text ↔ ¬ e.IsFinal := by
  constructor
  · intro hlast he
    obtain ⟨d, hd, htext⟩ := List.mem_map.mp (List.mem_of_getLast? hlast)
    exact not_isFinal_of_mem_upTo hd (text_injective htext ▸ he)
  · intro he
    rw [List.getLast?_map, getLast?_upTo hle he]
    rfl

theorem text_lt_of_pairwise {c : Date} (h : ((b.upTo e).map text).Pairwise (· < ·))
    (hc : c ∈ b.upTo e) (hd : d ∈ b.upTo e) (hlt : c.number < d.number) : c.text < d.text := by
  have htexts := List.pairwise_map.mp h
  have hnumbers := pairwise_upTo b e
  obtain ⟨before, after, hsplit⟩ := List.append_of_mem hd
  rw [hsplit] at hc htexts hnumbers
  rcases List.mem_append.mp hc with hc | hc
  · exact (List.pairwise_append.mp htexts).2.2 c hc d List.mem_cons_self
  · rcases List.mem_cons.mp hc with rfl | hc
    · exact absurd hlt (Int.lt_irrefl _)
    · have := List.rel_of_pairwise_cons (List.pairwise_append.mp hnumbers).2.1 hc
      omega

theorem yearAscends_of_pairwise {year : Int} (h : ((b.upTo e).map text).Pairwise (· < ·))
    (hb : b.year ≤ year) (he : year < e.year) : YearAscends year := by
  have hfirst := b.year_mem
  have hlast := e.year_mem
  obtain ⟨d, -, rfl, hd⟩ := exists_lastDay (show firstYear ≤ year ∧ year ≤ lastYear by omega)
  have hdlast : d.year < lastYear := Int.lt_of_lt_of_le he hlast.2
  obtain ⟨c, hc⟩ := Option.ne_none_iff_exists'.mp (next?_ne_none_of_year_lt hdlast)
  have hnumber := number_of_next? hc
  rcases next?_cases hc with ⟨hy, ho⟩ | ⟨-, hy, ho⟩
  · have := c.ordinal_mem
    rw [hy] at this
    omega
  have hbd : b ≤ d := by
    have := b.ordinal_mem
    rcases Int.lt_or_eq_of_le hb with hlt | heq
    · exact le_def.mpr (.inl hlt)
    · exact le_def.mpr (.inr ⟨heq, by rw [hd, ← heq]; exact this.2⟩)
  have hce : c ≤ e := by
    have := e.ordinal_mem
    rw [le_def]
    omega
  have hcnext : c.next? ≠ none := fun hnone => by
    have := next?_eq_none_iff.mp hnone
    have : 365 ≤ yearLength c.year := by unfold yearLength; split <;> decide
    omega
  have hdmem : d ∈ b.upTo e := (mem_upTo_iff (next?_ne_none_of_year_lt hdlast)).mpr
    ⟨hbd, le_def.mpr (.inl he)⟩
  have hcmem : c ∈ b.upTo e := (mem_upTo_iff hcnext).mpr
    ⟨le_iff_number_le.mpr (by have := le_iff_number_le.mp hbd; omega), hce⟩
  exact (text_lt_next?_iff hc).mp (text_lt_of_pairwise h hdmem hcmem (by omega)) (by omega)

theorem pairwise_text_iff : ((b.upTo e).map text).Pairwise (· < ·) ↔
    ∀ year, b.year ≤ year → year < e.year → YearAscends year := by
  refine ⟨fun h year => yearAscends_of_pairwise h, fun h => ?_⟩
  refine List.pairwise_map.mpr ((pairwise_upTo b e).imp_of_mem fun hc hd hlt => ?_)
  obtain ⟨hbc, -⟩ := le_of_mem_upTo hc
  obtain ⟨-, hde⟩ := le_of_mem_upTo hd
  exact text_lt_of_number_lt hlt fun year hy hy' =>
    h year (Int.le_trans (year_le_of_le hbc) hy) (Int.lt_of_lt_of_le hy' (year_le_of_le hde))

end ShardedSearch.Calendar.Date
