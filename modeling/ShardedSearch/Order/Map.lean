import ShardedSearch.Order.Set

/-! # Sorted maps

Finite maps kept as lists of pairs in strictly ascending key order. A map is
determined by its look-ups.
-/

namespace ShardedSearch

/-- A finite map, listed by strictly ascending key. -/
structure SortedMap (κ α : Type) [LT κ] where
  toList : List (κ × α)
  ascending : toList.Pairwise (·.1 < ·.1)

namespace SortedMap

variable {κ α β : Type} [LT κ]

instance [DecidableEq κ] [DecidableEq α] : DecidableEq (SortedMap κ α) := fun s t =>
  decidable_of_iff (s.toList = t.toList) ⟨by cases s; cases t; simp, fun h => h ▸ rfl⟩

def empty : SortedMap κ α := ⟨[], .nil⟩

instance : EmptyCollection (SortedMap κ α) := ⟨empty⟩

instance : Inhabited (SortedMap κ α) := ⟨empty⟩

def isEmpty (m : SortedMap κ α) : Bool := m.toList.isEmpty

def size (m : SortedMap κ α) : Nat := m.toList.length

def values (m : SortedMap κ α) : List α := m.toList.map (·.2)

def keys (m : SortedMap κ α) : SortedSet κ :=
  ⟨m.toList.map (·.1), List.pairwise_map.mpr m.ascending⟩

section Lookup

variable [DecidableEq κ]

def get? (m : SortedMap κ α) (k : κ) : Option α := (m.toList.find? (·.1 = k)).map (·.2)

def contains (m : SortedMap κ α) (k : κ) : Bool := (m.get? k).isSome

def erase (m : SortedMap κ α) (k : κ) : SortedMap κ α :=
  ⟨m.toList.filter (decide <| ·.1 ≠ k), m.ascending.sublist List.filter_sublist⟩

end Lookup

variable [DecidableEq κ] [DecidableLT κ]

def insertInto (f : α → α → α) (k : κ) (v : α) : List (κ × α) → List (κ × α)
  | [] => [(k, v)]
  | e :: es =>
    if k < e.1 then (k, v) :: e :: es
    else if k = e.1 then (k, f e.2 v) :: es
    else e :: insertInto f k v es

theorem key_of_mem_insertInto {f : α → α → α} {k : κ} {v : α} {a : κ × α} {es : List (κ × α)}
    (h : a ∈ insertInto f k v es) : a.1 = k ∨ ∃ b ∈ es, b.1 = a.1 := by
  induction es with
  | nil => simp_all [insertInto]
  | cons e es ih =>
    unfold insertInto at h
    split at h
    · rcases List.mem_cons.mp h with rfl | h
      · exact .inl rfl
      · exact .inr ⟨a, h, rfl⟩
    · split at h
      · rcases List.mem_cons.mp h with rfl | h
        · exact .inl rfl
        · exact .inr ⟨a, List.mem_cons_of_mem _ h, rfl⟩
      · rcases List.mem_cons.mp h with rfl | h
        · exact .inr ⟨a, List.mem_cons_self, rfl⟩
        · rcases ih h with h | ⟨b, hb, he⟩
          · exact .inl h
          · exact .inr ⟨b, List.mem_cons_of_mem _ hb, he⟩

variable [KeyOrder κ]

theorem ascending_insertInto {f : α → α → α} {k : κ} {v : α} {es : List (κ × α)}
    (h : es.Pairwise (·.1 < ·.1)) : (insertInto f k v es).Pairwise (·.1 < ·.1) := by
  induction es with
  | nil => simp [insertInto]
  | cons e es ih =>
    obtain ⟨he, hes⟩ := List.pairwise_cons.mp h
    unfold insertInto
    split
    · next hlt =>
      refine List.pairwise_cons.mpr ⟨fun a ha => ?_, h⟩
      rcases List.mem_cons.mp ha with rfl | ha
      · exact hlt
      · exact KeyOrder.trans hlt (he a ha)
    · next hlt =>
      split
      · next heq => exact List.pairwise_cons.mpr ⟨fun a ha => heq ▸ he a ha, hes⟩
      · next hne =>
        refine List.pairwise_cons.mpr ⟨fun a ha => ?_, ih hes⟩
        rcases key_of_mem_insertInto ha with hk | ⟨b, hb, hk⟩
        · exact hk ▸ KeyOrder.lt_of_not_lt hlt hne
        · exact hk ▸ he b hb

/-- Adds a pair; a value already at the key is combined with the new one. -/
def insertWith (f : α → α → α) (k : κ) (v : α) (m : SortedMap κ α) : SortedMap κ α :=
  ⟨insertInto f k v m.toList, ascending_insertInto m.ascending⟩

def insert (k : κ) (v : α) (m : SortedMap κ α) : SortedMap κ α := m.insertWith (fun _ v => v) k v

/-- The map of a list of pairs; of two pairs with one key the later counts. -/
def ofList (es : List (κ × α)) : SortedMap κ α := es.foldl (fun m e => m.insert e.1 e.2) empty

/-- Adds every pair of the second map, combining the values of shared keys. -/
def mergeWith (f : α → α → α) (m n : SortedMap κ α) : SortedMap κ α :=
  n.toList.foldl (fun m e => m.insertWith f e.1 e.2) m

/-- The pair with the greatest key not above a bound. -/
def floor? (m : SortedMap κ α) (k : κ) : Option (κ × α) :=
  (m.toList.filter (fun e => ¬ k < e.1)).getLast?

def next? (m : SortedMap κ α) (k : κ) : Option (κ × α) := m.toList.find? (fun e => k < e.1)

section Laws

variable {m n : SortedMap κ α} {k j : κ} {v : α} {f : α → α → α}

omit [DecidableLT κ] [KeyOrder κ] in
theorem get?_def : m.get? k = (m.toList.find? (·.1 = k)).map (·.2) := rfl

theorem find?_insertInto_self {es : List (κ × α)} (h : es.Pairwise (·.1 < ·.1)) :
    ((insertInto f k v es).find? (·.1 = k)).map (·.2) =
      some (((es.find? (·.1 = k)).map (·.2)).elim v (f · v)) := by
  induction es with
  | nil => simp [insertInto]
  | cons e es ih =>
    obtain ⟨he, hes⟩ := List.pairwise_cons.mp h
    unfold insertInto
    split
    · next hlt =>
      have hn : ((e :: es).find? (·.1 = k)) = none := by
        rw [List.find?_eq_none]
        intro a ha
        have : k < a.1 := by
          rcases List.mem_cons.mp ha with rfl | ha
          · exact hlt
          · exact KeyOrder.trans hlt (he a ha)
        simpa using (KeyOrder.ne_of_lt this).symm
      simp [hn]
    · split
      · next heq => subst heq; simp
      · next hne =>
        have : decide (e.1 = k) = false := by simpa using fun h => hne h.symm
        simpa [List.find?_cons, this] using ih hes

omit [KeyOrder κ] in
theorem find?_insertInto_of_ne {es : List (κ × α)} (hne : j ≠ k) :
    (insertInto f k v es).find? (·.1 = j) = es.find? (·.1 = j) := by
  have hkj : decide (k = j) = false := by simpa using fun h => hne h.symm
  induction es with
  | nil => simp [insertInto, hkj]
  | cons e es ih =>
    unfold insertInto
    split
    · simp [List.find?_cons, hkj]
    · split
      · next heq => subst heq; simp [hkj]
      · simp [List.find?_cons, ih]

theorem get?_insertWith_self : (m.insertWith f k v).get? k = some ((m.get? k).elim v (f · v)) :=
  find?_insertInto_self m.ascending

theorem get?_insertWith_of_ne (h : j ≠ k) : (m.insertWith f k v).get? j = m.get? j := by
  rw [get?_def, get?_def, insertWith, find?_insertInto_of_ne h]

@[simp]
theorem get?_insert_self : (m.insert k v).get? k = some v := by
  rw [insert, get?_insertWith_self]
  cases m.get? k <;> rfl

theorem get?_insert_of_ne (h : j ≠ k) : (m.insert k v).get? j = m.get? j :=
  get?_insertWith_of_ne h

end Laws

end SortedMap

end ShardedSearch
