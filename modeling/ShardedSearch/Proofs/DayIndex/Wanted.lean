import ShardedSearch.DayIndex.Scan
import ShardedSearch.Proofs.Index.PeriodRow
import ShardedSearch.Proofs.Query.Terms

/-! # Wanted keys

The keys of a period that hold wanted terms. None of them lies below the first one, and where a
scan of a day jumps to the next one, none is left out.
-/

namespace ShardedSearch.DayIndex

open Index.Layout (periodRow periodRow_lt_iff periodRow_injective)
open Store (Key)

variable {terms : Terms} {period value field : String} {k x start target : Key}

def IsWanted (terms : Terms) (period : String) (k : Key) : Prop :=
  ∃ value, k.row = periodRow period value ∧ terms.has value k.family = true

theorem isWanted_iff (hk : k.row = periodRow period value) :
    IsWanted terms period k ↔ terms.has value k.family = true := by
  constructor
  · rintro ⟨v, hv, hhas⟩
    rwa [periodRow_injective (hk.symm.trans hv)]
  · exact fun h => ⟨value, hk, h⟩

theorem lt_or_of_lt {v : String} (hk : k.row = periodRow period value)
    (hx : x.row = periodRow period v) (h : k < x) :
    value < v ∨ v = value ∧ (k.family < x.family ∨ x.family = k.family) := by
  rw [Key.lt_def, hk, hx, periodRow_lt_iff] at h
  rcases h with h | ⟨hrow, h | ⟨h, -⟩⟩
  · exact .inl h
  · exact .inr ⟨(periodRow_injective hrow).symm, .inl h⟩
  · exact .inr ⟨(periodRow_injective hrow).symm, .inr h.symm⟩

/-- A wanted key behind one that is not wanted has a higher value, or a higher field. -/
theorem lt_or_of_lt_wanted {v : String} (hk : k.row = periodRow period value)
    (hx : x.row = periodRow period v) (hnot : terms.has value k.family = false)
    (hhas : terms.has v x.family = true) (h : k < x) :
    value < v ∨ v = value ∧ k.family < x.family := by
  rcases lt_or_of_lt hk hx h with hv | ⟨rfl, hfield | hfield⟩
  · exact .inl hv
  · exact .inr ⟨rfl, hfield⟩
  · rw [← hfield, hhas] at hnot
    cases hnot

theorem lt_or_of_lt_keyOf {v : String} (hx : x.row = periodRow period v)
    (h : x < keyOf period value field) : v < value ∨ v = value ∧ x.family < field := by
  rw [Key.lt_def, hx] at h
  rcases h with h | ⟨hrow, h | ⟨-, h⟩⟩
  · exact .inl (periodRow_lt_iff.mp h)
  · exact .inr ⟨periodRow_injective hrow, h⟩
  · exact absurd h (Text.not_lt_empty _)

/-! ### The first wanted key -/

theorem exists_of_firstWanted? (h : firstWanted? terms period = some start) :
    ∃ value, start.row = periodRow period value := by
  unfold firstWanted? at h
  split at h
  · obtain ⟨field, -, rfl⟩ := Option.map_eq_some_iff.mp h
    exact ⟨_, rfl⟩
  · cases h

theorem not_lt_firstWanted (h : firstWanted? terms period = some start)
    (hx : IsWanted terms period x) : ¬ x < start := by
  obtain ⟨v, hrow, hhas⟩ := hx
  obtain ⟨fields, hfields, hmem⟩ := Terms.has_iff.mp hhas
  have hv := SortedMap.get?_eq_some_iff.mp hfields
  unfold firstWanted? at h
  split at h
  · next first firstFields rest hlist =>
    obtain ⟨field, hhead, rfl⟩ := Option.map_eq_some_iff.mp h
    have hasc := terms.ascending
    rw [hlist] at hasc hv
    intro hlt
    rcases lt_or_of_lt_keyOf hrow hlt with hvalue | ⟨rfl, hfield⟩
    · rcases List.mem_cons.mp hv with heq | hv
      · obtain ⟨rfl, -⟩ := Prod.mk.inj heq
        exact String.lt_irrefl _ hvalue
      · exact KeyOrder.not_lt_of_lt ((List.pairwise_cons.mp hasc).1 _ hv) hvalue
    · rcases List.mem_cons.mp hv with heq | hv
      · obtain ⟨-, rfl⟩ := Prod.mk.inj heq
        exact SortedSet.not_lt_of_head? hhead hmem hfield
      · exact absurd ((List.pairwise_cons.mp hasc).1 _ hv) (String.lt_irrefl _)
  · cases h

theorem not_has_of_firstWanted?_eq_none (hp : terms.IsProper)
    (h : firstWanted? terms period = none) (value field : String) :
    terms.has value field = false := by
  unfold firstWanted? at h
  split at h
  · next first fields rest hlist =>
    have hfirst : terms.get? first = some fields :=
      SortedMap.get?_eq_some_iff.mpr (hlist ▸ List.mem_cons_self)
    obtain ⟨f, hf⟩ := hp first fields hfirst
    rw [Option.map_eq_none_iff, List.head?_eq_none_iff] at h
    rw [SortedSet.mem_def, h] at hf
    cases hf
  · next hlist =>
    rw [← Bool.not_eq_true, Terms.has_iff]
    rintro ⟨fields, hfields, -⟩
    have := SortedMap.get?_eq_some_iff.mp hfields
    rw [hlist] at this
    cases this

/-! ### The next wanted key -/

theorem not_lt_next_field {fields : SortedSet String} {f next : String}
    (h : fields.next? field = some next) (hf : f ∈ fields) (hlt : field < f) : ¬ f < next :=
  (find?_lt_spec (f := id) fields.ascending h).2.2 f hf hlt

theorem not_lt_of_next_field_eq_none {fields : SortedSet String} {f : String}
    (h : fields.next? field = none) (hf : f ∈ fields) : ¬ field < f := by
  have := List.find?_eq_none.mp h f hf
  simpa using this

/-- No wanted key lies between a key that is not wanted and the next wanted one. -/
theorem not_lt_nextWanted (hk : k.row = periodRow period value)
    (hnot : terms.has value k.family = false)
    (h : nextWanted? terms period value k.family = some target) (hx : IsWanted terms period x)
    (hlt : k < x) : ¬ x < target := by
  obtain ⟨v, hrow, hhas⟩ := hx
  obtain ⟨fields, hfields, hmem⟩ := Terms.has_iff.mp hhas
  have hafter := lt_or_of_lt_wanted hk hrow hnot hhas hlt
  intro hbefore
  unfold nextWanted? at h
  split at h
  · next next hnext =>
    obtain rfl := Option.some.inj h
    obtain ⟨fields', hfields', hnext⟩ := Option.bind_eq_some_iff.mp hnext
    have hbefore := lt_or_of_lt_keyOf hrow hbefore
    rcases hafter with hv | ⟨rfl, hfield⟩
    · rcases hbefore with hv' | ⟨rfl, -⟩
      · exact KeyOrder.not_lt_of_lt hv hv'
      · exact String.lt_irrefl _ hv
    · rcases hbefore with hv' | ⟨-, hfield'⟩
      · exact String.lt_irrefl _ hv'
      · obtain rfl := Option.some.inj (hfields.symm.trans hfields')
        exact not_lt_next_field hnext hmem hfield hfield'
  · next hnone =>
    split at h
    · next w fields' hnext =>
      obtain ⟨field, hhead, rfl⟩ := Option.map_eq_some_iff.mp h
      obtain ⟨hw, -, hleast⟩ := find?_lt_spec terms.ascending hnext
      have hbefore := lt_or_of_lt_keyOf hrow hbefore
      rcases hafter with hv | ⟨rfl, hfield⟩
      · rcases hbefore with hv' | ⟨rfl, hfield'⟩
        · exact hleast (v, fields) (SortedMap.get?_eq_some_iff.mp hfields) hv hv'
        · rw [SortedMap.get?_eq_some_iff.mpr hw, Option.some.injEq] at hfields
          exact SortedSet.not_lt_of_head? hhead (hfields ▸ hmem) hfield'
      · rw [hfields, Option.bind_some] at hnone
        exact not_lt_of_next_field_eq_none hnone hmem hfield
    · cases h

theorem not_lt_of_nextWanted?_eq_none (hp : terms.IsProper) (hk : k.row = periodRow period value)
    (hnot : terms.has value k.family = false)
    (h : nextWanted? terms period value k.family = none) (hx : IsWanted terms period x) :
    ¬ k < x := by
  obtain ⟨v, hrow, hhas⟩ := hx
  obtain ⟨fields, hfields, hmem⟩ := Terms.has_iff.mp hhas
  intro hlt
  unfold nextWanted? at h
  split at h
  · cases h
  · next hnone =>
    rcases lt_or_of_lt_wanted hk hrow hnot hhas hlt with hv | ⟨rfl, hfield⟩
    · split at h
      · next w fields' hnext =>
        obtain ⟨hw, -, -⟩ := find?_lt_spec terms.ascending hnext
        obtain ⟨f, hf⟩ := hp w fields' (SortedMap.get?_eq_some_iff.mpr hw)
        rw [Option.map_eq_none_iff, List.head?_eq_none_iff] at h
        rw [SortedSet.mem_def, h] at hf
        cases hf
      · next hnext =>
        have := List.find?_eq_none.mp hnext _ (SortedMap.get?_eq_some_iff.mp hfields)
        exact this (decide_eq_true hv)
    · rw [hfields, Option.bind_some] at hnone
      exact not_lt_of_next_field_eq_none hnone hmem hfield

end ShardedSearch.DayIndex
