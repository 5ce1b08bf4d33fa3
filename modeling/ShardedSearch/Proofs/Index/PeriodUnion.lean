import Mathlib.Data.Multiset.AddSub
import Mathlib.Order.Bounds.Basic
import ShardedSearch.Proofs.Index.PeriodEntry
import ShardedSearch.Proofs.Order.Merging

/-! # Period entries made in any order

An entry comes about from pairs of a term and a bitmap, some of them inserted, some taken up with
other entries. Whatever the order, each term has the union of its bitmaps in the end. Entries are
told apart by their keys, and those with the same key only compare if they are equal.
-/

namespace ShardedSearch.Index

namespace Bitmap

instance : Std.Commutative union := ⟨fun a b => congrArg mk (Nat.or_comm a.mask b.mask)⟩

instance : Std.Associative union :=
  ⟨fun a b c => congrArg mk (Nat.or_assoc a.mask b.mask c.mask)⟩

instance : Std.IdempotentOp union := ⟨fun a => congrArg mk (Nat.or_self a.mask)⟩

theorem contains_of_min? {b : Bitmap} {i : Nat} (h : b.min? = some i) : b.contains i = true :=
  mem_toList.mp (List.mem_of_head? h)

theorem contains_of_max? {b : Bitmap} {i : Nat} (h : b.max? = some i) : b.contains i = true :=
  mem_toList.mp (List.mem_of_getLast? h)

end Bitmap

/-! ### Ways to make an entry -/

/-- How an entry comes about: it is given with its terms, or gets a bitmap of a term, or takes up
an entry that has come about in such a way. -/
inductive Making (β : Type) where
  | given (key : String) (terms : SortedMap String β)
  | insert (m : Making β) (term : String) (offsets : β)
  | merge (m other : Making β)

namespace Making

variable {β γ : Type}

/-- The key is the one that is given first. -/
def key : Making β → String
  | given key _ => key
  | insert m _ _ => m.key
  | merge m _ => m.key

def parts : Making β → Multiset (String × β)
  | given _ terms => terms.toList
  | insert m term offsets => (term, offsets) ::ₘ m.parts
  | merge m other => m.parts + other.parts

def entry : Making Bitmap → PeriodEntry
  | given key terms => ⟨key, terms⟩
  | insert m term offsets => m.entry.insert term offsets
  | merge m other => m.entry.merge other.entry

end Making

namespace PeriodEntry

variable {e e' e'' : PeriodEntry} {term : String} {parts : Multiset (String × Bitmap)}

/-- Whether an entry has the terms of the given pairs, each with the union of its bitmaps. -/
structure Unites (e : PeriodEntry) (parts : Multiset (String × Bitmap)) : Prop where
  isSome_iff : ∀ term, (e.get? term).isSome = true ↔ ∃ b, (term, b) ∈ parts
  hasOffset_iff : ∀ term i,
    e.hasOffset term i = true ↔ ∃ b, (term, b) ∈ parts ∧ b.contains i = true

theorem any_get?_merge {p : Bitmap → Bool} (hp : ∀ a b, p (a.union b) = (p a || p b)) :
    ((e.merge e').get? term).any p = ((e.get? term).any p || (e'.get? term).any p) := by
  rw [get?, merge, SortedMap.get?_mergeWith, ← get?, ← get?]
  cases e.get? term <;> cases e'.get? term <;> simp [hp]

/-- A test that unions pass with any of their parts is passed for a term if one of its bitmaps
passes it. The induction is on the way in which the entry is made. -/
theorem any_get?_entry {p : Bitmap → Bool} (hp : ∀ a b, p (a.union b) = (p a || p b))
    (m : Making Bitmap) (term : String) :
    (m.entry.get? term).any p = true ↔ ∃ b, (term, b) ∈ m.parts ∧ p b = true := by
  induction m with
  | given key terms =>
    rw [Option.any_eq_true]
    exact exists_congr fun b => and_congr_left fun _ => SortedMap.get?_eq_some_iff
  | insert m added offsets ih =>
    rw [Making.entry, any_get?_insert hp, Bool.or_eq_true, ih, Making.parts]
    simp only [Multiset.mem_cons, Prod.mk.injEq, or_and_right, exists_or, and_assoc,
      Bool.and_eq_true, decide_eq_true_eq, exists_and_left, exists_eq_left]
    exact or_comm
  | merge m other ih ih' =>
    rw [Making.entry, any_get?_merge hp, Bool.or_eq_true, ih, ih', Making.parts]
    simp only [Multiset.mem_add, or_and_right, exists_or]

theorem unites_entry (m : Making Bitmap) : m.entry.Unites m.parts where
  isSome_iff term := by
    simpa [Option.any_eq_true, Option.isSome_iff_exists] using
      any_get?_entry (p := fun _ => true) (fun _ _ => rfl) m term
  hasOffset_iff term i := any_get?_entry (fun a b => Bitmap.contains_union a b i) m term

theorem Unites.terms_eq (h : e.Unites parts) (h' : e'.Unites parts) : e.terms = e'.terms := by
  refine SortedMap.ext_get? fun term => ?_
  have hsome : (e.get? term).isSome = (e'.get? term).isSome :=
    Bool.eq_iff_iff.mpr ((h.isSome_iff term).trans (h'.isSome_iff term).symm)
  have hoffset : ∀ i, e.hasOffset term i = e'.hasOffset term i := fun i =>
    Bool.eq_iff_iff.mpr ((h.hasOffset_iff term i).trans (h'.hasOffset_iff term i).symm)
  simp only [hasOffset] at hoffset
  change e.get? term = e'.get? term
  cases hb : e.get? term with
  | none =>
    rw [hb] at hsome
    exact (Option.isNone_iff_eq_none.mp (by simpa using hsome.symm)).symm
  | some b =>
    rw [hb] at hsome
    obtain ⟨b', hb'⟩ := Option.isSome_iff_exists.mp hsome.symm
    rw [hb, hb'] at hoffset
    rw [hb', Bitmap.ext_contains hoffset]

theorem key_entry (m : Making Bitmap) : m.entry.key = m.key := by
  induction m with
  | given => rfl
  | insert _ _ _ ih => exact ih
  | merge _ _ ih => exact ih

/-! ### Merging -/

theorem terms_merge_comm (e e' : PeriodEntry) : (e.merge e').terms = (e'.merge e).terms := by
  simp only [merge]
  exact Std.Commutative.comm _ _

theorem merge_assoc (e e' e'' : PeriodEntry) :
    (e.merge e').merge e'' = e.merge (e'.merge e'') := by
  simp only [merge]
  exact congrArg (mk e.key) (Std.Associative.assoc _ _ _)

theorem merge_self (e : PeriodEntry) : e.merge e = e := by
  simp only [merge]
  exact congrArg (mk e.key) (Std.IdempotentOp.idempotent _)

/-! ### Bounds -/

theorem exists_hasOffset_bounds {i : Nat} (h : e.hasOffset term i = true) :
    (∃ term, e.hasOffset term e.bounds.1 = true) ∧ ∃ term, e.hasOffset term e.bounds.2 = true := by
  have hvalue : ∀ {b : Bitmap} {j : Nat}, b ∈ e.terms.values → b.contains j = true →
      ∃ term, e.hasOffset term j = true := by
    intro b j hb hj
    obtain ⟨⟨term, b⟩, hm, rfl⟩ := List.mem_map.mp hb
    exact ⟨term, PeriodEntry.hasOffset_iff.mpr ⟨b, SortedMap.get?_eq_some_iff.mpr hm, hj⟩⟩
  obtain ⟨b, hb, hi⟩ := PeriodEntry.hasOffset_iff.mp h
  have hv := mem_values_of_get? hb
  obtain ⟨m, hm, -⟩ := Bitmap.exists_min?_le hi
  obtain ⟨n, hn, -⟩ := Bitmap.exists_le_max? hi
  constructor
  · obtain ⟨l, hl⟩ := Option.isSome_iff_exists.mp
      (List.isSome_min?_of_mem (List.mem_filterMap.mpr ⟨b, hv, hm⟩))
    obtain ⟨b', hb', hl'⟩ := List.mem_filterMap.mp (List.min?_mem hl)
    rw [bounds, hl]
    exact hvalue hb' (Bitmap.contains_of_min? hl')
  · obtain ⟨u, hu⟩ := Option.isSome_iff_exists.mp
      (List.isSome_max?_of_mem (List.mem_filterMap.mpr ⟨b, hv, hn⟩))
    obtain ⟨b', hb', hu'⟩ := List.mem_filterMap.mp (List.max?_mem hu)
    rw [bounds, hu]
    exact hvalue hb' (Bitmap.contains_of_max? hu')

def offsets (e : PeriodEntry) : Set Nat := {i | ∃ term, e.hasOffset term i = true}

theorem isEmpty_iff_offsets : e.isEmpty = true ↔ e.offsets = ∅ := by
  rw [isEmpty_iff, Set.eq_empty_iff_forall_notMem, forall_comm]
  simp [offsets]

theorem isLeast_isGreatest_bounds (h : e.offsets.Nonempty) :
    IsLeast e.offsets e.bounds.1 ∧ IsGreatest e.offsets e.bounds.2 := by
  obtain ⟨i, term, hi⟩ := h
  obtain ⟨hmin, hmax⟩ := exists_hasOffset_bounds hi
  exact ⟨⟨hmin, fun _ ⟨_, hj⟩ => (bounds_of_hasOffset hj).1⟩,
    ⟨hmax, fun _ ⟨_, hj⟩ => (bounds_of_hasOffset hj).2⟩⟩

/-! ### Order -/

theorem compare?_eq_lt_iff : e.compare? e' = some .lt ↔ e.key < e'.key := by
  unfold compare?
  split
  · simp [*]
  · next h => split <;> (try split) <;> simp [h]

theorem compare?_eq_gt_iff : e.compare? e' = some .gt ↔ e'.key < e.key := by
  unfold compare?
  split
  · next h => simp [KeyOrder.not_lt_of_lt h]
  · split
    · simp [*]
    · next h => split <;> simp [h]

theorem compare?_of_key_eq (h : e.key = e'.key) :
    e.compare? e' = if e.terms = e'.terms then some .eq else none := by
  rw [compare?, h, if_neg (KeyOrder.irrefl _), if_neg (KeyOrder.irrefl _)]

theorem compare?_eq_eq_iff : e.compare? e' = some .eq ↔ e = e' := by
  constructor
  · intro h
    unfold compare? at h
    split at h
    · cases h
    · next hlt =>
      split at h
      · cases h
      · next hgt =>
        split at h
        · next hterms =>
          have hkey := KeyOrder.connected hlt hgt
          cases e; cases e'
          exact congr (congrArg mk hkey) hterms
        · cases h
  · rintro rfl
    rw [compare?_of_key_eq rfl, if_pos rfl]

theorem compare?_eq_none_iff : e.compare? e' = none ↔ e.key = e'.key ∧ e.terms ≠ e'.terms := by
  constructor
  · intro h
    have hkey : e.key = e'.key := by
      refine KeyOrder.connected (fun hlt => ?_) (fun hgt => ?_)
      · rw [compare?_eq_lt_iff.mpr hlt] at h
        cases h
      · rw [compare?_eq_gt_iff.mpr hgt] at h
        cases h
    refine ⟨hkey, fun hterms => ?_⟩
    rw [compare?_of_key_eq hkey, if_pos hterms] at h
    cases h
  · rintro ⟨hkey, hterms⟩
    rw [compare?_of_key_eq hkey, if_neg hterms]

theorem compare?_swap (e e' : PeriodEntry) :
    e'.compare? e = (e.compare? e').map Ordering.swap := by
  cases h : e.compare? e' with
  | none =>
    obtain ⟨hkey, hterms⟩ := compare?_eq_none_iff.mp h
    exact compare?_eq_none_iff.mpr ⟨hkey.symm, hterms.symm⟩
  | some o =>
    cases o with
    | lt => exact compare?_eq_gt_iff.mpr (compare?_eq_lt_iff.mp h)
    | eq => exact compare?_eq_eq_iff.mpr (compare?_eq_eq_iff.mp h).symm
    | gt => exact compare?_eq_lt_iff.mpr (compare?_eq_gt_iff.mp h)

/-- Entries have the order of their keys; with the same key they are equal or do not compare. -/
structure ComparesByKey (e e' : PeriodEntry) : Prop where
  lt_iff : e.compare? e' = some .lt ↔ e.key < e'.key
  gt_iff : e.compare? e' = some .gt ↔ e'.key < e.key
  eq_iff : e.compare? e' = some .eq ↔ e = e'
  none_iff : e.compare? e' = none ↔ e.key = e'.key ∧ e.terms ≠ e'.terms
  swap : e'.compare? e = (e.compare? e').map Ordering.swap

theorem comparesByKey (e e' : PeriodEntry) : e.ComparesByKey e' :=
  ⟨compare?_eq_lt_iff, compare?_eq_gt_iff, compare?_eq_eq_iff, compare?_eq_none_iff,
    compare?_swap e e'⟩

theorem compare?_trans {o : Ordering} (h : e.compare? e' = some o) (h' : e'.compare? e'' = some o) :
    e.compare? e'' = some o := by
  cases o with
  | lt =>
    rw [compare?_eq_lt_iff] at *
    exact KeyOrder.trans h h'
  | eq =>
    rw [compare?_eq_eq_iff] at *
    exact h.trans h'
  | gt =>
    rw [compare?_eq_gt_iff] at *
    exact KeyOrder.trans h' h

def IsBelow (e e' : PeriodEntry) : Prop := (e.compare? e').any Ordering.isLE = true

theorem isBelow_iff : e.IsBelow e' ↔ e.key < e'.key ∨ e = e' := by
  rw [IsBelow, Option.any_eq_true, ← compare?_eq_lt_iff, ← compare?_eq_eq_iff]
  constructor
  · rintro ⟨o, ho, hle⟩
    cases o with
    | lt => exact .inl ho
    | eq => exact .inr ho
    | gt => cases hle
  · rintro (h | h)
    · exact ⟨.lt, h, rfl⟩
    · exact ⟨.eq, h, rfl⟩

theorem IsBelow.trans (h : e.IsBelow e') (h' : e'.IsBelow e'') : e.IsBelow e'' := by
  rw [isBelow_iff] at *
  rcases h with h | rfl
  · rcases h' with h' | rfl
    · exact .inl (KeyOrder.trans h h')
    · exact .inl h
  · exact h'

theorem IsBelow.antisymm (h : e.IsBelow e') (h' : e'.IsBelow e) : e = e' := by
  rcases isBelow_iff.mp h with h | h
  · rcases isBelow_iff.mp h' with h' | h'
    · exact absurd h' (KeyOrder.not_lt_of_lt h)
    · exact h'.symm
  · exact h

end PeriodEntry

end ShardedSearch.Index
