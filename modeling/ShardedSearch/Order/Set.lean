import ShardedSearch.Order.Key

/-! # Sorted sets

Finite sets kept as strictly ascending lists, so that two sets with the same
members are equal.
-/

namespace ShardedSearch

/-- A finite set, listed in strictly ascending order. -/
structure SortedSet (κ : Type) [LT κ] where
  toList : List κ
  ascending : toList.Pairwise (· < ·)

namespace SortedSet

variable {κ : Type} [LT κ]

instance : Membership κ (SortedSet κ) := ⟨fun s k => k ∈ s.toList⟩

theorem mem_def {k : κ} {s : SortedSet κ} : k ∈ s ↔ k ∈ s.toList := Iff.rfl

instance [DecidableEq κ] (k : κ) (s : SortedSet κ) : Decidable (k ∈ s) :=
  inferInstanceAs (Decidable (k ∈ s.toList))

instance [DecidableEq κ] : DecidableEq (SortedSet κ) := fun s t =>
  decidable_of_iff (s.toList = t.toList) ⟨by cases s; cases t; simp, fun h => h ▸ rfl⟩

def empty : SortedSet κ := ⟨[], .nil⟩

instance : EmptyCollection (SortedSet κ) := ⟨empty⟩

instance : Inhabited (SortedSet κ) := ⟨empty⟩

def isEmpty (s : SortedSet κ) : Bool := s.toList.isEmpty

def size (s : SortedSet κ) : Nat := s.toList.length

variable [DecidableEq κ] [DecidableLT κ]

def insertInto (k : κ) : List κ → List κ
  | [] => [k]
  | x :: xs => if k < x then k :: x :: xs else if k = x then x :: xs else x :: insertInto k xs

theorem mem_insertInto {k a : κ} {xs : List κ} : a ∈ insertInto k xs ↔ a = k ∨ a ∈ xs := by
  induction xs with
  | nil => simp [insertInto]
  | cons x xs ih =>
    unfold insertInto
    split
    · simp
    · split
      · next h => subst h; simp
      · simp only [List.mem_cons, ih]
        constructor
        · rintro (h | h | h) <;> simp [h]
        · rintro (h | h | h) <;> simp [h]

variable [KeyOrder κ]

theorem ascending_insertInto {k : κ} {xs : List κ} (h : xs.Pairwise (· < ·)) :
    (insertInto k xs).Pairwise (· < ·) := by
  induction xs with
  | nil => simp [insertInto]
  | cons x xs ih =>
    obtain ⟨hx, hxs⟩ := List.pairwise_cons.mp h
    unfold insertInto
    split
    · next hlt =>
      refine List.pairwise_cons.mpr ⟨fun a ha => ?_, h⟩
      rcases List.mem_cons.mp ha with rfl | ha
      · exact hlt
      · exact KeyOrder.trans hlt (hx a ha)
    · next hlt =>
      split
      · exact h
      · next hne =>
        refine List.pairwise_cons.mpr ⟨fun a ha => ?_, ih hxs⟩
        rcases mem_insertInto.mp ha with rfl | ha
        · exact KeyOrder.lt_of_not_lt hlt hne
        · exact hx a ha

def insert (k : κ) (s : SortedSet κ) : SortedSet κ :=
  ⟨insertInto k s.toList, ascending_insertInto s.ascending⟩

@[simp]
theorem mem_insert {k a : κ} {s : SortedSet κ} : a ∈ s.insert k ↔ a = k ∨ a ∈ s :=
  mem_insertInto

def ofList (ks : List κ) : SortedSet κ := ks.foldl (fun s k => s.insert k) empty

theorem mem_foldl_insert {ks : List κ} {s : SortedSet κ} {a : κ} :
    a ∈ ks.foldl (fun s k => s.insert k) s ↔ a ∈ ks ∨ a ∈ s := by
  induction ks generalizing s with
  | nil => simp
  | cons k ks ih =>
    rw [List.foldl_cons, ih, mem_insert, List.mem_cons]
    constructor
    · rintro (h | h | h) <;> simp [h]
    · rintro ((h | h) | h) <;> simp [h]

@[simp]
theorem mem_ofList {ks : List κ} {a : κ} : a ∈ ofList ks ↔ a ∈ ks := by
  have hn : ¬ a ∈ (empty : SortedSet κ) := by simp [mem_def, empty]
  simp [ofList, mem_foldl_insert, hn]

def union (s t : SortedSet κ) : SortedSet κ := t.toList.foldl (fun s k => s.insert k) s

@[simp]
theorem mem_union {s t : SortedSet κ} {a : κ} : a ∈ s.union t ↔ a ∈ s ∨ a ∈ t := by
  rw [union, mem_foldl_insert]
  exact or_comm

omit [DecidableEq κ] [DecidableLT κ] [KeyOrder κ] in
def filter (p : κ → Bool) (s : SortedSet κ) : SortedSet κ :=
  ⟨s.toList.filter p, s.ascending.sublist List.filter_sublist⟩

omit [DecidableEq κ] [DecidableLT κ] [KeyOrder κ] in
@[simp]
theorem mem_filter {p : κ → Bool} {s : SortedSet κ} {a : κ} :
    a ∈ s.filter p ↔ a ∈ s ∧ p a = true := List.mem_filter

omit [DecidableLT κ] [KeyOrder κ] in
def inter (s t : SortedSet κ) : SortedSet κ := s.filter (decide <| · ∈ t)

omit [DecidableLT κ] [KeyOrder κ] in
@[simp]
theorem mem_inter {s t : SortedSet κ} {a : κ} : a ∈ s.inter t ↔ a ∈ s ∧ a ∈ t := by
  simp [inter]

omit [DecidableLT κ] [KeyOrder κ] in
def erase (k : κ) (s : SortedSet κ) : SortedSet κ := s.filter (decide <| · ≠ k)

omit [DecidableLT κ] [KeyOrder κ] in
@[simp]
theorem mem_erase {k a : κ} {s : SortedSet κ} : a ∈ s.erase k ↔ a ∈ s ∧ a ≠ k := by
  simp [erase]

/-- The least member above a key. -/
def next? (k : κ) (s : SortedSet κ) : Option κ := s.toList.find? (decide <| k < ·)

end SortedSet

end ShardedSearch
