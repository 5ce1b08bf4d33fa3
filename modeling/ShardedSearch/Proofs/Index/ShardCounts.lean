import ShardedSearch.Index.ShardCounts
import ShardedSearch.Proofs.Calendar.Date
import ShardedSearch.Proofs.Index.Days
import ShardedSearch.Proofs.Shard

/-! # Shards of days

A day comes to its shards or, if their number is not known, to itself; never to both.
-/

namespace ShardedSearch

open Calendar (Date)
open Shard (IsDated IsListable MayFollow)

namespace Shard

variable {day : String} {n m : Nat}

theorem isDay_of_mark (h : mark ∉ day.toList) : isDay day = true := isDay_iff.mpr h

theorem isDay_ofDay (day : String) (n : Nat) : isDay (ofDay day n) = false := by
  rw [← Bool.not_eq_true, isDay_iff, Index.Layout.toList_ofDay]
  simp [mark]

theorem dayOf_ofDay (h : mark ∉ day.toList) (n : Nat) : dayOf (ofDay day n) = day :=
  String.toList_inj.mp (toList_dayOf_of_eq h (Index.Layout.toList_ofDay day n))

theorem ofDay_inj (h : ofDay day n = ofDay day m) : n = m := by
  have hlist := congrArg String.toList h
  rw [Index.Layout.toList_ofDay, Index.Layout.toList_ofDay, List.append_cancel_left_eq] at hlist
  have hn := congrArg (Nat.ofDigitChars 10 · 0) (List.cons.inj hlist).2
  simpa using hn

end Shard

namespace Index.ShardCounts

variable {day : String} {counts : ShardCounts} {id : ShardId}

theorem mem_shardsOf : id ∈ counts.shardsOf day ↔
    ∃ n < counts.count day, id = Shard.ofDay day n := by
  rw [shardsOf, List.mem_mergeSort, List.mem_map]
  simp only [List.mem_range, eq_comm]

theorem ascending_shardsOf (day : String) (counts : ShardCounts) :
    (counts.shardsOf day).Pairwise (· < ·) := by
  have hsorted : (counts.shardsOf day).Pairwise fun a b => ¬ b < a := by
    refine (List.pairwise_mergeSort ?_ ?_ _).imp fun h => by simpa using h
    · intro a b c hab hbc
      simp only [decide_eq_true_eq] at hab hbc ⊢
      exact fun hca => by
        rcases Classical.em (a = b) with rfl | hne
        · exact hbc hca
        · exact hbc (KeyOrder.trans hca (KeyOrder.lt_of_not_lt hab fun h => hne h.symm))
    · intro a b
      by_cases h : b < a
      · simp [KeyOrder.not_lt_of_lt h]
      · simp [h]
  have hnodup : (counts.shardsOf day).Nodup := by
    rw [shardsOf, (List.mergeSort_perm ..).nodup_iff]
    exact List.pairwise_map.mpr (List.nodup_range.imp fun hne h => hne (Shard.ofDay_inj h))
  exact (hsorted.and hnodup).imp fun ⟨hle, hne⟩ => KeyOrder.lt_of_not_lt hle fun h => hne h.symm

theorem canList_of_recorded (h : ∀ r ∈ counts.counts.toList, r.2 * idBytes ≤ bytesMax)
    (day : String) : counts.canList day = true := by
  rw [canList, decide_eq_true_eq, count]
  cases hfloor : counts.counts.floor? day with
  | none => exact Nat.zero_le _
  | some r => exact h r (SortedMap.floor?_eq_some_iff.mp hfloor).1

theorem dayOf_of_mem_expand (hday : Shard.mark ∉ day.toList) (h : id ∈ counts.expand day) :
    Shard.dayOf id = day := by
  unfold expand at h
  split at h
  · obtain rfl := List.mem_singleton.mp h
    exact Shard.dayOf_of_isDay (Shard.isDay_of_mark hday)
  · obtain ⟨n, -, rfl⟩ := mem_shardsOf.mp h
    exact Shard.dayOf_ofDay hday n

theorem expand_ne_nil (counts : ShardCounts) (day : String) : counts.expand day ≠ [] := by
  unfold expand
  split
  · exact List.cons_ne_nil _ _
  · next h => exact h

theorem shardsOf_eq_nil_iff : counts.shardsOf day = [] ↔ counts.count day = 0 := by
  rw [← List.length_eq_zero_iff, shardsOf, List.length_mergeSort, List.length_map,
    List.length_range]

/-- Whether an id stands for a day of so many shards: it is one of them, or the day itself if
there are none. -/
def StandsFor (day : String) (n : Nat) (id : ShardId) : Prop :=
  (n = 0 ∧ id = day) ∨ ∃ i < n, id = Shard.ofDay day i

theorem mem_expand_iff : id ∈ counts.expand day ↔ StandsFor day (counts.count day) id := by
  rw [StandsFor, ← mem_shardsOf, ← shardsOf_eq_nil_iff]
  unfold expand
  split
  · next h => simp [h]
  · next h => simp [show counts.shardsOf day ≠ [] from h]

theorem expand_of_count_eq_zero (h : counts.count day = 0) : counts.expand day = [day] := by
  rw [expand, shardsOf_eq_nil_iff.mpr h]

theorem ascending_expand (counts : ShardCounts) (day : String) :
    (counts.expand day).Pairwise (· < ·) := by
  unfold expand
  split
  · exact List.pairwise_singleton ..
  · exact ascending_shardsOf day counts

theorem pairwise_expand (hday : Shard.mark ∉ day.toList) :
    (counts.expand day).Pairwise MayFollow := by
  unfold expand
  split
  · exact List.pairwise_singleton ..
  · refine (ascending_shardsOf day counts).imp_of_mem fun ha hb hlt hdated => ?_
    obtain ⟨n, -, rfl⟩ := mem_shardsOf.mp ha
    obtain ⟨m, -, rfl⟩ := mem_shardsOf.mp hb
    refine ⟨hdated.of_dayOf_eq ?_, Shard.precedes_iff.mpr ⟨hlt, Bool.eq_false_iff.mpr ?_⟩⟩
    · rw [Shard.dayOf_ofDay hday, Shard.dayOf_ofDay hday]
    · intro hcov
      have := (Shard.covers_iff_dayOf.mp hcov).1
      rw [Shard.isDay_ofDay] at this
      cases this

end Index.ShardCounts

namespace Calendar.Date

variable {first last d e : Date} {counts : Index.ShardCounts} {a b id : ShardId}

theorem isDated_iff (hd : d.year ≤ 9999) (hid : Shard.dayOf id = d.text) :
    IsDated id ↔ d.HasShortYear := by
  constructor
  · intro h
    refine ⟨Int.not_lt.mp fun hneg => ?_, hd⟩
    obtain ⟨cs, hcs⟩ := Index.Layout.chars_of_neg hneg
    have := h.2 '-' (by rw [hid, Index.Layout.toList_text, hcs]; exact List.mem_cons_self)
    exact absurd this (by decide)
  · intro h
    refine ⟨?_, ?_⟩
    · rw [hid, Index.Layout.toList_text, length_chars h]
    · rw [hid, Index.Layout.toList_text]
      exact isDigit_of_mem_chars h

theorem mayFollow (hlt : d.number < e.number) (he : e.year ≤ 9999)
    (ha : Shard.dayOf a = d.text) (hb : Shard.dayOf b = e.text) : MayFollow a b := by
  intro hdated
  have hle : d ≤ e := le_iff_number_le.mpr (Int.le_of_lt hlt)
  have hyear := year_le_of_le hle
  have hd := (isDated_iff (Int.le_trans hyear he) ha).mp hdated
  have hes : e.HasShortYear := ⟨Int.le_trans hd.1 hyear, he⟩
  have hbd := (isDated_iff he hb).mpr hes
  have hne : ¬ e ≤ d := fun h => by have := le_iff_number_le.mp h; omega
  have hday : Shard.dayOf a < Shard.dayOf b := by
    rw [ha, hb, String.lt_iff, Index.Layout.toList_text, Index.Layout.toList_text]
    exact (chars_lt_iff hd hes).mpr hne
  refine ⟨hbd, Shard.precedes_iff.mpr ⟨Shard.lt_of_dayOf_lt hdated hbd hday, ?_⟩⟩
  refine Bool.eq_false_iff.mpr fun hcov => ?_
  obtain ⟨hself, hcov, -⟩ := Shard.covers_iff_dayOf.mp hcov
  rw [hcov, Shard.dayOf_of_isDay hself] at hday
  exact String.lt_irrefl _ hday

theorem year_le_of_isListable (hid : Shard.dayOf id = d.text) (h : IsListable id) :
    d.year ≤ 9999 := by
  refine Int.not_lt.mp fun hlong => ?_
  obtain ⟨cs, hcs⟩ := Index.Layout.chars_of_long hlong
  rw [← Index.Layout.toList_text, ← hid] at hcs
  rcases h with hdated | ⟨ds, hds⟩
  · exact absurd (hdated.2 '+' (hcs ▸ List.mem_cons_self)) (by decide)
  · obtain ⟨rest, hrest⟩ := Shard.exists_toList_eq_append id
    rw [hcs, hds, List.cons_append] at hrest
    exact absurd (List.cons.inj hrest).1 (by decide)

/-- The shards of the days of a range are listed in order, as long as all of them are ids that
sources may have. -/
theorem pairwise_expand_upTo
    (h : ∀ id ∈ ((first.upTo last).map text).flatMap counts.expand, IsListable id) :
    (((first.upTo last).map text).flatMap counts.expand).Pairwise MayFollow := by
  have hday : ∀ {d : Date} {id}, id ∈ counts.expand d.text → Shard.dayOf id = d.text :=
    fun {d _} h => Index.ShardCounts.dayOf_of_mem_expand (Index.Layout.mark_not_mem_text d) h
  rw [List.flatMap_map] at h ⊢
  have hyear : ∀ d ∈ first.upTo last, d.year ≤ 9999 := fun d hd => by
    obtain ⟨id, hid⟩ := List.exists_mem_of_ne_nil _ (counts.expand_ne_nil d.text)
    exact year_le_of_isListable (hday hid) (h id (List.mem_flatMap.mpr ⟨d, hd, hid⟩))
  refine List.pairwise_flatMap.mpr ⟨fun d _ => ?_, ?_⟩
  · exact Index.ShardCounts.pairwise_expand (Index.Layout.mark_not_mem_text d)
  · refine (pairwise_upTo first last).imp_of_mem fun hd he hlt a ha b hb => ?_
    exact mayFollow hlt (hyear _ he) (hday ha) (hday hb)

theorem text_lt_iff (hd : d.HasShortYear) (he : e.HasShortYear) : d.text < e.text ↔ ¬ e ≤ d := by
  rw [String.lt_iff, Index.Layout.toList_text, Index.Layout.toList_text, chars_lt_iff hd he]

theorem ascending_expand {days : List Date} (hyear : ∀ d ∈ days, d.HasShortYear)
    (hasc : days.Pairwise fun d e => ¬ e ≤ d) :
    ((days.map text).flatMap counts.expand).Pairwise (· < ·) := by
  rw [List.flatMap_map]
  refine List.pairwise_flatMap.mpr ⟨fun d _ => counts.ascending_expand d.text, ?_⟩
  refine hasc.imp_of_mem fun {d e} hd he hlt a ha b hb => ?_
  have hday : ∀ {d : Date} {id}, id ∈ counts.expand d.text → Shard.dayOf id = d.text :=
    fun {d _} h => Index.ShardCounts.dayOf_of_mem_expand (Index.Layout.mark_not_mem_text d) h
  refine Shard.lt_of_dayOf_lt ((isDated_iff (hyear d hd).2 (hday ha)).mpr (hyear d hd))
    ((isDated_iff (hyear e he).2 (hday hb)).mpr (hyear e he)) ?_
  rw [hday ha, hday hb, text_lt_iff (hyear d hd) (hyear e he)]
  exact hlt

theorem ascending_expand_upTo (hfirst : 0 ≤ first.year) (hlast : last.year ≤ 9999) :
    (((first.upTo last).map text).flatMap counts.expand).Pairwise (· < ·) := by
  refine ascending_expand (fun d hd => ?_) ((pairwise_upTo first last).imp fun hlt hle => ?_)
  · obtain ⟨hle, hle'⟩ := le_of_mem_upTo hd
    exact ⟨Int.le_trans hfirst (year_le_of_le hle), Int.le_trans (year_le_of_le hle') hlast⟩
  · exact absurd (le_iff_number_le.mp hle) (Int.not_le.mpr hlt)

end Calendar.Date

end ShardedSearch
