import Mathlib.Data.List.Basic
import Mathlib.Data.List.Induction
import ShardedSearch.Order.Map

/-! # Laws of sorted collections

Ascending lists are determined by their members, sorted sets by membership and sorted
maps by their look-ups.
-/

namespace ShardedSearch

theorem KeyOrder.lt_or_eq_of_not_lt {κ : Type} [LT κ] [KeyOrder κ] {a b : κ} (h : ¬ a < b) :
    b < a ∨ a = b := by
  by_cases hlt : b < a
  · exact .inl hlt
  · exact .inr (connected h hlt)

theorem KeyOrder.lt_of_lt_of_not_lt {κ : Type} [LT κ] [KeyOrder κ] {a b c : κ} (h : a < b)
    (hc : ¬ c < b) : a < c := by
  rcases lt_or_eq_of_not_lt hc with hlt | rfl
  · exact trans h hlt
  · exact h

instance : KeyOrder Int where
  irrefl := Int.lt_irrefl
  trans := Int.lt_trans
  connected h h' := Int.le_antisymm (Int.not_lt.mp h') (Int.not_lt.mp h)

section Lists

variable {κ α : Type} [LT κ] [KeyOrder κ]

theorem eq_of_mem_iff_of_ascending {f : α → κ} {xs ys : List α}
    (hx : xs.Pairwise (f · < f ·)) (hy : ys.Pairwise (f · < f ·))
    (h : ∀ a, a ∈ xs ↔ a ∈ ys) : xs = ys := by
  have nodup : ∀ {zs : List α}, zs.Pairwise (f · < f ·) → zs.Nodup := fun hz =>
    hz.imp fun hlt he => KeyOrder.ne_of_lt hlt (congrArg f he)
  have hp := (List.perm_ext_iff_of_nodup (nodup hx) (nodup hy)).mpr h
  exact hp.eq_of_pairwise (fun a b _ _ hab hba => absurd hba (KeyOrder.not_lt_of_lt hab)) hx hy

theorem getLast?_eq_some_iff_of_ascending {f : α → κ} {xs : List α} {a : α}
    (h : xs.Pairwise (f · < f ·)) :
    xs.getLast? = some a ↔ a ∈ xs ∧ ∀ b ∈ xs, ¬ f a < f b := by
  rcases List.eq_nil_or_concat xs with rfl | ⟨ys, y, rfl⟩
  · simp
  rw [List.concat_eq_append] at h ⊢
  have hy : ∀ b ∈ ys, f b < f y := fun b hb =>
    (List.pairwise_append.mp h).2.2 b hb y (List.mem_singleton_self y)
  rw [List.getLast?_concat, Option.some.injEq]
  constructor
  · rintro rfl
    refine ⟨List.mem_append_right _ (List.mem_singleton_self y), fun b hb => ?_⟩
    rcases List.mem_append.mp hb with hb | hb
    · exact KeyOrder.not_lt_of_lt (hy b hb)
    · exact List.mem_singleton.mp hb ▸ KeyOrder.irrefl _
  · rintro ⟨ha, hle⟩
    rcases List.mem_append.mp ha with ha | ha
    · exact absurd (hy a ha) (hle y (List.mem_append_right _ (List.mem_singleton_self y)))
    · exact (List.mem_singleton.mp ha).symm

variable [DecidableEq κ]

theorem find?_eq_some_iff_of_ascending {f : α → κ} {xs : List α} {k : κ} {a : α}
    (h : xs.Pairwise (f · < f ·)) :
    xs.find? (f · = k) = some a ↔ a ∈ xs ∧ f a = k := by
  constructor
  · intro hf
    exact ⟨List.mem_of_find?_eq_some hf, by simpa using List.find?_some hf⟩
  · rintro ⟨hm, rfl⟩
    induction xs with
    | nil => simp at hm
    | cons x xs ih =>
      obtain ⟨hx, hxs⟩ := List.pairwise_cons.mp h
      rcases List.mem_cons.mp hm with rfl | hm
      · simp
      · have hne : f x ≠ f a := KeyOrder.ne_of_lt (hx a hm)
        simp [hne, ih hxs hm]

omit [DecidableEq κ] in
theorem find?_lt_spec [DecidableLT κ] {f : α → κ} {xs : List α} {k : κ} {a : α}
    (h : xs.Pairwise (f · < f ·)) (ha : xs.find? (decide <| k < f ·) = some a) :
    a ∈ xs ∧ k < f a ∧ ∀ b ∈ xs, k < f b → ¬ f b < f a := by
  induction xs with
  | nil => cases ha
  | cons x xs ih =>
    obtain ⟨hx, hxs⟩ := List.pairwise_cons.mp h
    rw [List.find?_cons] at ha
    split at ha
    · next hk =>
      obtain rfl := Option.some.inj ha
      refine ⟨List.mem_cons_self, of_decide_eq_true hk, fun b hb _ => ?_⟩
      rcases List.mem_cons.mp hb with rfl | hb
      · exact KeyOrder.irrefl _
      · exact KeyOrder.not_lt_of_lt (hx b hb)
    · next hk =>
      obtain ⟨hm, hlt, hmin⟩ := ih hxs ha
      refine ⟨List.mem_cons_of_mem x hm, hlt, fun b hb hkb => ?_⟩
      rcases List.mem_cons.mp hb with rfl | hb
      · exact absurd (decide_eq_true hkb) (by simp [hk])
      · exact hmin b hb hkb

end Lists

namespace SortedSet

variable {κ : Type} [LT κ] [KeyOrder κ] {s t : SortedSet κ}

theorem ext (h : ∀ a, a ∈ s ↔ a ∈ t) : s = t := by
  obtain ⟨xs, hx⟩ := s
  obtain ⟨ys, hy⟩ := t
  congr
  exact eq_of_mem_iff_of_ascending (f := id) hx hy h

omit [KeyOrder κ] in
@[simp]
theorem not_mem_empty (a : κ) : ¬ a ∈ (empty : SortedSet κ) := by
  simp [mem_def, empty]

omit [KeyOrder κ] in
theorem isEmpty_iff : s.isEmpty = true ↔ ∀ a, ¬ a ∈ s := by
  rw [isEmpty, List.isEmpty_iff, List.eq_nil_iff_forall_not_mem]
  rfl

theorem not_lt_of_head? {a b : κ} (h : s.toList.head? = some a) (hb : b ∈ s) : ¬ b < a := by
  obtain ⟨bs, hbs⟩ := List.head?_eq_some_iff.mp h
  have hasc := s.ascending
  rw [hbs] at hasc
  rw [mem_def, hbs, List.mem_cons] at hb
  rcases hb with rfl | hb
  · exact KeyOrder.irrefl _
  · exact KeyOrder.not_lt_of_lt ((List.pairwise_cons.mp hasc).1 b hb)

end SortedSet

namespace SortedMap

variable {κ α : Type} [LT κ] [KeyOrder κ] [DecidableEq κ] {m n : SortedMap κ α} {k j : κ} {v : α}

theorem get?_eq_some_iff : m.get? k = some v ↔ (k, v) ∈ m.toList := by
  rw [get?_def, Option.map_eq_some_iff]
  constructor
  · rintro ⟨⟨k', v'⟩, hf, rfl⟩
    obtain ⟨hm, rfl⟩ := (find?_eq_some_iff_of_ascending m.ascending).mp hf
    exact hm
  · intro hm
    exact ⟨(k, v), (find?_eq_some_iff_of_ascending m.ascending).mpr ⟨hm, rfl⟩, rfl⟩

theorem ext_get? (h : ∀ k, m.get? k = n.get? k) : m = n := by
  have hm : ∀ e, e ∈ m.toList ↔ e ∈ n.toList := by
    rintro ⟨k, v⟩
    rw [← get?_eq_some_iff, ← get?_eq_some_iff, h]
  cases m with | mk xs hx
  cases n with | mk ys hy
  congr
  exact eq_of_mem_iff_of_ascending hx hy hm

omit [KeyOrder κ] [DecidableEq κ] in
theorem eq_of_toList_eq (h : m.toList = n.toList) : m = n := by
  cases m
  cases n
  obtain rfl := h
  rfl

omit [KeyOrder κ] in
@[simp]
theorem get?_empty (k : κ) : (empty : SortedMap κ α).get? k = none := rfl

omit [KeyOrder κ] in
theorem get?_erase : (m.erase j).get? k = if k = j then none else m.get? k := by
  simp only [get?_def, erase, List.find?_filter]
  split
  · next h =>
    subst h
    simp
  · next h =>
    congr 2
    funext e
    by_cases he : e.1 = k
    · simp [he, h]
    · simp [he]

variable [DecidableLT κ] {f : α → α → α}

theorem get?_insertWith :
    (m.insertWith f k v).get? j = if j = k then some ((m.get? k).elim v (f · v)) else m.get? j := by
  split
  · next h => rw [h, get?_insertWith_self]
  · next h => exact get?_insertWith_of_ne h

theorem get?_insert : (m.insert k v).get? j = if j = k then some v else m.get? j := by
  split
  · next h => rw [h, get?_insert_self]
  · next h => exact get?_insert_of_ne h

theorem get?_foldl_insertWith {es : List (κ × α)} (h : es.Pairwise (·.1 < ·.1)) :
    (es.foldl (fun m e => m.insertWith f e.1 e.2) m).get? k =
      Option.merge f (m.get? k) ((es.find? (·.1 = k)).map (·.2)) := by
  induction es generalizing m with
  | nil => simp
  | cons e es ih =>
    obtain ⟨he, hes⟩ := List.pairwise_cons.mp h
    rw [List.foldl_cons, ih hes, get?_insertWith]
    by_cases hk : k = e.1
    · have hn : es.find? (·.1 = k) = none := by
        rw [List.find?_eq_none]
        intro a ha
        simpa [hk] using (KeyOrder.ne_of_lt (he a ha)).symm
      subst hk
      rw [hn]
      cases m.get? e.1 <;> simp
    · have hk' : ¬ e.1 = k := fun he => hk he.symm
      simp [hk, hk']

theorem get?_mergeWith : (m.mergeWith f n).get? k = Option.merge f (m.get? k) (n.get? k) := by
  rw [mergeWith, get?_foldl_insertWith n.ascending, ← get?_def]

omit [DecidableEq κ] [DecidableLT κ] in
theorem nodup_toList (m : SortedMap κ α) : m.toList.Nodup :=
  m.ascending.imp fun hlt he => KeyOrder.ne_of_lt hlt (congrArg Prod.fst he)

theorem toList_insert_perm (h : m.get? k = none) :
    (m.insert k v).toList.Perm ((k, v) :: m.toList) := by
  have hnew : ∀ v', (k, v') ∉ m.toList := by
    intro v' hv
    rw [get?_eq_some_iff.mpr hv] at h
    cases h
  refine (List.perm_ext_iff_of_nodup (nodup_toList _)
    (List.nodup_cons.mpr ⟨hnew v, nodup_toList m⟩)).mpr fun ⟨j, w⟩ => ?_
  rw [← get?_eq_some_iff, get?_insert, List.mem_cons, ← get?_eq_some_iff, Prod.mk.injEq]
  split
  · next hj => simp [hj, h, eq_comm]
  · next hj => simp [hj]

theorem toList_foldl_insert_perm {es : List (κ × α)} (hnodup : (es.map (·.1)).Nodup)
    (hnew : ∀ e ∈ es, m.get? e.1 = none) :
    (es.foldl (fun m e => m.insert e.1 e.2) m).toList.Perm (es ++ m.toList) := by
  induction es generalizing m with
  | nil => exact List.Perm.refl _
  | cons e es ih =>
    obtain ⟨he, hes⟩ := List.nodup_cons.mp hnodup
    have hnew' : ∀ a ∈ es, (m.insert e.1 e.2).get? a.1 = none := by
      intro a ha
      have hne : a.1 ≠ e.1 := fun h => he (List.mem_map.mpr ⟨a, ha, h⟩)
      rw [get?_insert_of_ne hne]
      exact hnew a (List.mem_cons_of_mem e ha)
    have hadd := toList_insert_perm (v := e.2) (hnew e List.mem_cons_self)
    exact ((ih hes hnew').trans (hadd.append_left es)).trans List.perm_middle

theorem toList_ofList_perm {es : List (κ × α)} (h : (es.map (·.1)).Nodup) :
    (ofList es).toList.Perm es := by
  have := toList_foldl_insert_perm (m := empty) h fun _ _ => rfl
  rwa [empty, List.append_nil] at this

theorem toList_ofList {es : List (κ × α)} (h : es.Pairwise (·.1 < ·.1)) :
    (ofList es).toList = es := by
  have hkeys : (es.map (·.1)).Nodup := (List.pairwise_map.mpr h).imp KeyOrder.ne_of_lt
  have hperm := toList_ofList_perm hkeys
  exact eq_of_mem_iff_of_ascending (ofList es).ascending h fun _ => hperm.mem_iff

theorem ofList_toList (m : SortedMap κ α) : ofList m.toList = m :=
  eq_of_toList_eq (toList_ofList m.ascending)

theorem ofList_concat (es : List (κ × α)) (e : κ × α) :
    ofList (es ++ [e]) = (ofList es).insert e.1 e.2 := List.foldl_concat ..

theorem exists_mem_ofList_iff {es : List (κ × α)} :
    (∃ v, (k, v) ∈ (ofList es).toList) ↔ ∃ v, (k, v) ∈ es := by
  simp only [← get?_eq_some_iff]
  induction es using List.reverseRecOn with
  | nil => exact iff_of_false (fun ⟨_, h⟩ => nomatch h) (fun ⟨_, h⟩ => nomatch h)
  | append_singleton es e ih =>
    simp only [ofList_concat, get?_insert, List.mem_append, List.mem_singleton]
    split
    · next hk => exact iff_of_true ⟨_, rfl⟩ ⟨e.2, .inr (by rw [hk])⟩
    · next hk =>
      rw [ih]
      exact exists_congr fun v => (or_iff_left fun h => hk (congrArg Prod.fst h)).symm

/-- Of what ascending sources come to, the last pair with a key counts. -/
theorem mem_ofList_filterMap_iff {β ι : Type} [LT ι] [KeyOrder ι] {key : β → ι}
    {g : β → Option (κ × α)} {xs : List β} (h : xs.Pairwise (key · < key ·)) :
    (k, v) ∈ (ofList (xs.filterMap g)).toList ↔
      ∃ x ∈ xs, g x = some (k, v) ∧ ∀ y ∈ xs, ∀ w, g y = some (k, w) → ¬ key x < key y := by
  rw [← get?_eq_some_iff]
  induction xs using List.reverseRecOn with
  | nil => exact iff_of_false nofun fun ⟨_, h, _⟩ => nomatch h
  | append_singleton xs x ih =>
    obtain ⟨hxs, -, hlt⟩ := List.pairwise_append.mp h
    have hlt : ∀ y ∈ xs, key y < key x := fun y hy => hlt y hy x (List.mem_singleton_self x)
    have hlast : x ∈ xs ++ [x] := List.mem_append_right _ (List.mem_singleton_self x)
    -- Unless the last source comes to a pair with the key, it changes neither side.
    have hother : (∀ w, g x ≠ some (k, w)) →
        ((∃ y ∈ xs, g y = some (k, v) ∧ ∀ z ∈ xs, ∀ w, g z = some (k, w) → ¬ key y < key z) ↔
          ∃ y ∈ xs ++ [x], g y = some (k, v) ∧
            ∀ z ∈ xs ++ [x], ∀ w, g z = some (k, w) → ¬ key y < key z) := by
      intro hx
      simp only [List.mem_append, List.mem_singleton, or_and_right, exists_or, exists_eq_left,
        or_imp, forall_and, forall_eq, hx, false_and, or_false, false_imp_iff, implies_true,
        and_true]
    rw [List.filterMap_append]
    cases hg : g x with
    | none =>
      rw [List.filterMap_cons_none hg, List.filterMap_nil, List.append_nil, ih hxs]
      exact hother fun w hw => nomatch hg.symm.trans hw
    | some e =>
      rw [List.filterMap_cons_some hg, List.filterMap_nil, ofList_concat, get?_insert]
      split
      · next hk =>
        rw [Option.some.injEq]
        constructor
        · rintro rfl
          refine ⟨x, hlast, hg.trans (by rw [hk]), fun y hy w _ => ?_⟩
          rcases List.mem_append.mp hy with hy | hy
          · exact KeyOrder.not_lt_of_lt (hlt y hy)
          · exact List.mem_singleton.mp hy ▸ KeyOrder.irrefl _
        · rintro ⟨y, hy, hgy, hnone⟩
          rcases List.mem_append.mp hy with hy | hy
          · exact absurd (hlt y hy) (hnone x hlast e.2 (hg.trans (by rw [hk])))
          · obtain rfl := List.mem_singleton.mp hy
            exact congrArg Prod.snd (Option.some.inj (hg.symm.trans hgy))
      · next hk =>
        rw [ih hxs]
        exact hother fun w hw => hk (congrArg Prod.fst (Option.some.inj (hg.symm.trans hw))).symm

omit [DecidableEq κ] in
theorem floor?_eq_some_iff {e : κ × α} : m.floor? k = some e ↔
    e ∈ m.toList ∧ ¬ k < e.1 ∧ ∀ a ∈ m.toList, ¬ k < a.1 → ¬ e.1 < a.1 := by
  rw [floor?, getLast?_eq_some_iff_of_ascending (f := Prod.fst)
    (m.ascending.sublist List.filter_sublist)]
  simp only [List.mem_filter, decide_eq_true_eq, and_assoc, and_imp]

omit [DecidableEq κ] [KeyOrder κ] in
theorem floor?_eq_none_iff : m.floor? k = none ↔ ∀ a ∈ m.toList, k < a.1 := by
  rw [floor?, List.getLast?_eq_none_iff, List.filter_eq_nil_iff]
  simp only [decide_eq_true_eq, Decidable.not_not]

omit [DecidableLT κ] in
theorem toList_perm_erase (h : m.get? k = some v) :
    m.toList.Perm ((k, v) :: (m.erase k).toList) := by
  have hgone : (k, v) ∉ (m.erase k).toList := by
    intro hv
    have := get?_eq_some_iff.mpr hv
    rw [get?_erase, if_pos rfl] at this
    cases this
  refine (List.perm_ext_iff_of_nodup (nodup_toList m)
    (List.nodup_cons.mpr ⟨hgone, nodup_toList _⟩)).mpr fun ⟨j, w⟩ => ?_
  rw [← get?_eq_some_iff, List.mem_cons, ← get?_eq_some_iff, get?_erase, Prod.mk.injEq]
  split
  · next hj => simp [hj, h, eq_comm]
  · next hj => simp [hj]

@[simp]
theorem mergeWith_empty_left : (empty : SortedMap κ α).mergeWith f m = m :=
  ext_get? fun k => by rw [get?_mergeWith, get?_empty]; cases m.get? k <;> rfl

end SortedMap

end ShardedSearch
