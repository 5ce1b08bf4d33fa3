import Mathlib.Data.List.TakeWhile
import ShardedSearch.Proofs.Calendar.Text
import ShardedSearch.Proofs.Text.Order
import ShardedSearch.Shard

/-! # Order of shard ids

Among days of eight digits and their shards, ids are in the order of their days, and those of
one day stay together behind it.
-/

namespace ShardedSearch.Shard

variable {a b c : ShardId}

/-- The id of a day of eight digits, or of one of its shards. -/
def IsDated (id : ShardId) : Prop :=
  (dayOf id).toList.length = 8 ∧ ∀ c ∈ (dayOf id).toList, c.isDigit = true

instance (id : ShardId) : Decidable (IsDated id) :=
  decidable_of_iff ((dayOf id).toList.length = 8 ∧ (dayOf id).toList.all Char.isDigit = true)
    (and_congr_right' List.all_eq_true)

/-! ### Days of ids -/

theorem toList_dayOf (id : ShardId) : (dayOf id).toList = id.toList.takeWhile (· ≠ mark) :=
  Text.before_toList mark id

theorem isDay_iff : isDay a = true ↔ mark ∉ a.toList := by
  simp [isDay]

theorem toList_dayOf_of_eq {cs rest : List Char} (hm : mark ∉ cs)
    (h : a.toList = cs ++ mark :: rest) : (dayOf a).toList = cs := by
  have hall : ∀ c ∈ cs, decide (c ≠ mark) = true := fun c hc =>
    decide_eq_true fun he => hm (he ▸ hc)
  rw [toList_dayOf, h, List.takeWhile_append_of_pos hall]
  simp

theorem dayOf_of_isDay (h : isDay a = true) : dayOf a = a := by
  rw [← String.toList_inj, toList_dayOf, List.takeWhile_eq_self_iff]
  intro c hc
  have hne : c ≠ mark := fun he => isDay_iff.mp h (he ▸ hc)
  exact decide_eq_true hne

theorem exists_toList_eq (h : isDay a = false) :
    ∃ rest, a.toList = (dayOf a).toList ++ mark :: rest := by
  cases hc : Text.cutFirst? mark a.toList with
  | none =>
    rw [isDay_iff.mpr (Text.cutFirst?_eq_none_iff.mp hc)] at h
    cases h
  | some p =>
    obtain ⟨heq, hm⟩ := Text.cutFirst?_eq_some_iff.mp hc
    exact ⟨p.2, by rw [toList_dayOf_of_eq hm heq, heq]⟩

theorem exists_toList_eq_append (id : ShardId) :
    ∃ rest, id.toList = (dayOf id).toList ++ rest := by
  cases h : isDay id with
  | true => exact ⟨[], by rw [dayOf_of_isDay h, List.append_nil]⟩
  | false =>
    obtain ⟨rest, heq⟩ := exists_toList_eq h
    exact ⟨mark :: rest, heq⟩

theorem covers_iff_dayOf :
    covers a b = true ↔ isDay a = true ∧ dayOf b = a ∧ isDay b = false := by
  rw [covers_iff]
  refine and_congr_right fun ha => ?_
  have hmark := isDay_iff.mp ha
  constructor
  · rintro ⟨rest, hb⟩
    refine ⟨String.toList_inj.mp (toList_dayOf_of_eq hmark hb),
      Bool.eq_false_iff.mpr fun hd => isDay_iff.mp hd ?_⟩
    rw [hb]
    simp
  · rintro ⟨rfl, hb⟩
    exact exists_toList_eq hb

theorem lt_of_covers (h : covers a b = true) : a < b := by
  obtain ⟨-, rest, hb⟩ := covers_iff.mp h
  have := (@Text.append_lt_append_iff a.toList a.toList [] (mark :: rest) rfl).mpr
    (.inr ⟨rfl, List.nil_lt_cons _ _⟩)
  rw [String.lt_iff, hb]
  simpa using this

/-! ### Dated ids -/

theorem IsDated.of_dayOf_eq (h : IsDated a) (hab : dayOf b = dayOf a) : IsDated b := by
  unfold IsDated
  rwa [hab]

theorem IsDated.of_covers (h : IsDated a) (hab : covers a b = true) : IsDated b := by
  obtain ⟨ha, hb, -⟩ := covers_iff_dayOf.mp hab
  exact h.of_dayOf_eq (hb.trans (dayOf_of_isDay ha).symm)

theorem lt_of_dayOf_lt (ha : IsDated a) (hb : IsDated b) (h : dayOf a < dayOf b) : a < b := by
  obtain ⟨as, has⟩ := exists_toList_eq_append a
  obtain ⟨bs, hbs⟩ := exists_toList_eq_append b
  rw [String.lt_iff, has, hbs, Text.append_lt_append_iff (ha.1.trans hb.1.symm)]
  exact .inl (String.lt_iff.mp h)

theorem not_dayOf_lt (ha : IsDated a) (hb : IsDated b) (h : a < b) : ¬ dayOf b < dayOf a :=
  fun hlt => KeyOrder.not_lt_of_lt h (lt_of_dayOf_lt hb ha hlt)

theorem dayOf_eq_of_covers (ha : IsDated a) (hb : IsDated b) (hab : a < b) (hbc : b < c)
    (hcov : covers a c = true) : covers a b = true := by
  obtain ⟨hday, hc, -⟩ := covers_iff_dayOf.mp hcov
  have hself := dayOf_of_isDay hday
  have hdated := ha.of_covers hcov
  have heq : dayOf b = a := by
    refine (KeyOrder.connected (fun h => ?_) fun h => ?_)
    · exact not_dayOf_lt ha hb hab (hself.symm ▸ h)
    · exact not_dayOf_lt hb hdated hbc (hc.symm ▸ h)
  refine covers_iff_dayOf.mpr ⟨hday, heq, Bool.eq_false_iff.mpr fun hb => ?_⟩
  rw [← heq, dayOf_of_isDay hb] at hab
  exact String.lt_irrefl _ hab

theorem precedes_trans (ha : IsDated a) (hb : IsDated b) (hab : precedes a b = true)
    (hbc : b < c) : precedes a c = true := by
  obtain ⟨hlt, hncov⟩ := precedes_iff.mp hab
  refine precedes_iff.mpr ⟨String.lt_trans hlt hbc, Bool.eq_false_iff.mpr fun hcov => ?_⟩
  rw [dayOf_eq_of_covers ha hb hlt hbc hcov] at hncov
  cases hncov

/-! ### Ids of sources -/

def IsEarly (id : ShardId) : Prop := ∃ cs, id.toList = '-' :: cs

/-- Ids that the sources of a query may have. -/
def IsListable (id : ShardId) : Prop := IsDated id ∨ IsEarly id

def MayFollow (a b : ShardId) : Prop := IsDated a → IsDated b ∧ precedes a b = true

theorem isDated_of_early_lt (ha : IsDated a) (hb : IsListable b) (hab : a < b) : IsDated b := by
  refine hb.resolve_right fun ⟨cs, hcs⟩ => ?_
  obtain ⟨rest, hrest⟩ := exists_toList_eq_append a
  cases hd : (dayOf a).toList with
  | nil =>
    have := ha.1
    rw [hd] at this
    cases this
  | cons d ds =>
    have hdigit := (Calendar.digit_bounds (ha.2 d (hd ▸ List.mem_cons_self))).1
    rw [String.lt_iff, hrest, hd, hcs, List.cons_append, List.cons_lt_cons_iff,
      Text.char_lt_iff, Text.char_eq_iff] at hab
    simp only [Char.reduceToNat] at hdigit hab
    omega

theorem pairwise_mayFollow {ids : List ShardId} (hasc : ids.Pairwise (· < ·))
    (hlist : ∀ id ∈ ids, IsListable id)
    (hapart : ∀ a ∈ ids, ∀ b ∈ ids, covers a b = false) : ids.Pairwise MayFollow :=
  hasc.imp_of_mem fun ha hb hlt hdated => ⟨isDated_of_early_lt hdated (hlist _ hb) hlt,
    precedes_iff.mpr ⟨hlt, hapart _ ha _ hb⟩⟩

end ShardedSearch.Shard
