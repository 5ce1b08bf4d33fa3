import ShardedSearch.Proofs.Index.PaddedBits
import ShardedSearch.Proofs.Index.PeriodUnion

/-! # Period entries of padded bits

Entries whose bitmaps are lists of bits of any lengths. All that is seen of such an entry is what
is seen of the entry of bitmaps with the same offsets, and it stays so under every way to make
one.
-/

namespace ShardedSearch

namespace SortedMap

variable {κ α β : Type} [LT κ]

def mapValues (g : α → β) (m : SortedMap κ α) : SortedMap κ β :=
  ⟨m.toList.map fun e => (e.1, g e.2), List.pairwise_map.mpr m.ascending⟩

theorem values_mapValues (g : α → β) (m : SortedMap κ α) :
    (m.mapValues g).values = m.values.map g := by
  simp [values, mapValues, Function.comp_def]

variable [DecidableEq κ] {g : α → β} {m n : SortedMap κ α} {k : κ}

@[simp]
theorem get?_mapValues : (m.mapValues g).get? k = (m.get? k).map g := by
  simp only [get?_def, mapValues, List.find?_map, Option.map_map]
  rfl

variable [KeyOrder κ] [DecidableLT κ] {f : α → α → α} {f' : β → β → β}

theorem mapValues_insertWith (hg : ∀ a b, g (f a b) = f' (g a) (g b)) (v : α) :
    (m.insertWith f k v).mapValues g = (m.mapValues g).insertWith f' k (g v) := by
  refine ext_get? fun j => ?_
  simp only [get?_mapValues, get?_insertWith]
  split
  · cases m.get? k <;> simp [hg]
  · rfl

theorem mapValues_mergeWith (hg : ∀ a b, g (f a b) = f' (g a) (g b)) :
    (m.mergeWith f n).mapValues g = (m.mapValues g).mergeWith f' (n.mapValues g) := by
  refine ext_get? fun j => ?_
  simp only [get?_mapValues, get?_mergeWith]
  cases m.get? j <;> cases n.get? j <;> simp [hg]

end SortedMap

namespace Index

/-! ### Bits as bitmaps -/

namespace Bits

variable {a b : Bits}

def bitmap (b : Bits) : Bitmap := .ofBytes b.toBytes

theorem contains_bitmap (b : Bits) (i : Nat) : b.bitmap.contains i = b.contains i := by
  rw [bitmap, Bitmap.contains_ofBytes, byteBit_toBytes]

theorem toList_bitmap (b : Bits) : b.bitmap.toList = b.toList := by
  refine b.bitmap.toList_ascending.eq_of_mem_iff b.toList_pairwise fun i => ?_
  rw [Bitmap.mem_toList, contains_bitmap, mem_toList_iff]

theorem bitmap_union (a b : Bits) : (a.union b).bitmap = a.bitmap.union b.bitmap :=
  Bitmap.ext_contains fun i => by
    simp only [contains_bitmap, contains_union, Bitmap.contains_union]

theorem isEmpty_bitmap (b : Bits) : b.bitmap.isEmpty = b.isEmpty := by
  rw [Bitmap.isEmpty_eq_isEmpty_toList, toList_bitmap, isEmpty_eq]

theorem min?_bitmap (b : Bits) : b.bitmap.min? = b.min? := by
  rw [Bitmap.min?, toList_bitmap, min?_eq_head?]

theorem max?_bitmap (b : Bits) : b.bitmap.max? = b.max? := by
  rw [Bitmap.max?, toList_bitmap, max?_eq_getLast?]

end Bits

theorem Bitmap.toList_injective : Function.Injective toList := fun a b h =>
  ext_contains fun i => by rw [Bool.eq_iff_iff, ← mem_toList, h, mem_toList]

/-! ### Padded entries -/

/-- An entry whose bitmaps are lists of bits. -/
structure PaddedEntry where
  key : String
  terms : SortedMap String Bits

namespace PaddedEntry

def get? (term : String) (e : PaddedEntry) : Option Bits := e.terms.get? term

def insert (term : String) (offsets : Bits) (e : PaddedEntry) : PaddedEntry :=
  { e with terms := e.terms.insertWith Bits.union term offsets }

def merge (e other : PaddedEntry) : PaddedEntry :=
  { e with terms := e.terms.mergeWith Bits.union other.terms }

def isEmpty (e : PaddedEntry) : Bool := e.terms.values.all Bits.isEmpty

def bounds (e : PaddedEntry) : Nat × Nat :=
  (((e.terms.values.filterMap Bits.min?).min?).getD 0,
    ((e.terms.values.filterMap Bits.max?).max?).getD 0)

/-- The terms with their offsets, which is what tells entries apart. -/
def listed (e : PaddedEntry) : List (String × List Nat) :=
  e.terms.toList.map fun t => (t.1, t.2.toList)

def compare? (e other : PaddedEntry) : Option Ordering :=
  if e.key < other.key then some .lt
  else if other.key < e.key then some .gt
  else if e.listed = other.listed then some .eq
  else none

def entry (e : PaddedEntry) : PeriodEntry := ⟨e.key, e.terms.mapValues Bits.bitmap⟩

variable (e e' : PaddedEntry)

theorem entry_insert (term : String) (b : Bits) :
    (e.insert term b).entry = e.entry.insert term b.bitmap :=
  congrArg (PeriodEntry.mk e.key) (SortedMap.mapValues_insertWith Bits.bitmap_union b)

theorem entry_merge : (e.merge e').entry = e.entry.merge e'.entry :=
  congrArg (PeriodEntry.mk e.key) (SortedMap.mapValues_mergeWith Bits.bitmap_union)

theorem toList_get?_entry (term : String) :
    (e.entry.get? term).map Bitmap.toList = (e.get? term).map Bits.toList := by
  simp only [PeriodEntry.get?, entry, SortedMap.get?_mapValues, Option.map_map, get?]
  exact Option.map_congr fun b _ => b.toList_bitmap

theorem isEmpty_entry : e.entry.isEmpty = e.isEmpty := by
  simp only [PeriodEntry.isEmpty, entry, SortedMap.values_mapValues, List.all_map, isEmpty]
  exact List.all_congr rfl fun b => b.isEmpty_bitmap

theorem bounds_entry : e.entry.bounds = e.bounds := by
  have hmin : Bitmap.min? ∘ Bits.bitmap = Bits.min? := funext Bits.min?_bitmap
  have hmax : Bitmap.max? ∘ Bits.bitmap = Bits.max? := funext Bits.max?_bitmap
  simp only [PeriodEntry.bounds, entry, SortedMap.values_mapValues, List.filterMap_map, hmin, hmax,
    bounds]

theorem terms_entry_eq_iff : e.entry.terms = e'.entry.terms ↔ e.listed = e'.listed := by
  have hlisted : ∀ p : PaddedEntry,
      p.listed = p.entry.terms.toList.map (Prod.map id Bitmap.toList) := by
    intro p
    simp [listed, entry, SortedMap.mapValues, Bits.toList_bitmap]
  have hinj : Function.Injective (Prod.map (id : String → String) Bitmap.toList) :=
    Function.injective_id.prodMap Bitmap.toList_injective
  rw [hlisted, hlisted, (List.map_injective_iff.mpr hinj).eq_iff]
  exact ⟨congrArg _, SortedMap.eq_of_toList_eq⟩

theorem compare?_entry : e.entry.compare? e'.entry = e.compare? e' := by
  simp only [PeriodEntry.compare?, terms_entry_eq_iff, compare?]
  rfl

end PaddedEntry

namespace Making

variable {β γ : Type}

def map (g : β → γ) : Making β → Making γ
  | given key terms => given key (terms.mapValues g)
  | insert m term offsets => insert (m.map g) term (g offsets)
  | merge m other => merge (m.map g) (other.map g)

def padded : Making Bits → PaddedEntry
  | given key terms => ⟨key, terms⟩
  | insert m term offsets => m.padded.insert term offsets
  | merge m other => m.padded.merge other.padded

theorem entry_padded (m : Making Bits) : m.padded.entry = (m.map Bits.bitmap).entry := by
  induction m with
  | given => rfl
  | insert m term offsets ih => rw [padded, PaddedEntry.entry_insert, ih, map, entry]
  | merge m other ih ih' => rw [padded, PaddedEntry.entry_merge, ih, ih', map, entry]

end Making

/-- In whatever order its pairs of a term and a bitmap are inserted and merged, an entry has the
union of the bitmaps of each term. Its bounds enclose its offsets as closely as can be, and its
order is that of its key. The bits behind the highest offset of a bitmap take no part in this. -/
theorem entries_unite_parts :
    (∀ m : Making Bitmap, m.entry.key = m.key ∧ m.entry.Unites m.parts) ∧
    (∀ m m' : Making Bitmap, m.parts = m'.parts → m.entry.terms = m'.entry.terms) ∧
    (∀ e e' e'' : PeriodEntry, (e.merge e').key = e.key ∧
      (e.merge e').terms = (e'.merge e).terms ∧
      (e.merge e').merge e'' = e.merge (e'.merge e'') ∧ e.merge e = e) ∧
    (∀ e : PeriodEntry, (e.isEmpty = true ↔ e.offsets = ∅) ∧
      (e.isEmpty = false → IsLeast e.offsets e.bounds.1 ∧ IsGreatest e.offsets e.bounds.2)) ∧
    (∀ e e' : PeriodEntry, e.ComparesByKey e' ∧ (e.IsBelow e' → e'.IsBelow e → e = e')) ∧
    (∀ (e e' e'' : PeriodEntry) (o : Ordering),
      e.compare? e' = some o → e'.compare? e'' = some o → e.compare? e'' = some o) ∧
    (∀ e e' e'' : PeriodEntry, e.IsBelow e' → e'.IsBelow e'' → e.IsBelow e'') ∧
    (∀ m : Making Bits, m.padded.entry = (m.map Bits.bitmap).entry) ∧
    (∀ p p' : PaddedEntry,
      (∀ term, (p.get? term).map Bits.toList = (p.entry.get? term).map Bitmap.toList) ∧
      p.isEmpty = p.entry.isEmpty ∧ p.bounds = p.entry.bounds ∧
      p.compare? p' = p.entry.compare? p'.entry) := by
  refine ⟨fun m => ⟨PeriodEntry.key_entry m, PeriodEntry.unites_entry m⟩, fun m m' h => ?_,
    fun e e' e'' => ⟨rfl, e.terms_merge_comm e', e.merge_assoc e' e'', e.merge_self⟩,
    fun e => ⟨PeriodEntry.isEmpty_iff_offsets, fun h => ?_⟩,
    fun e e' => ⟨e.comparesByKey e', PeriodEntry.IsBelow.antisymm⟩,
    fun _ _ _ _ => PeriodEntry.compare?_trans, fun _ _ _ => PeriodEntry.IsBelow.trans,
    Making.entry_padded, fun p p' => ⟨fun term => (p.toList_get?_entry term).symm,
      p.isEmpty_entry.symm, p.bounds_entry.symm, (p.compare?_entry p').symm⟩⟩
  · exact (PeriodEntry.unites_entry m).terms_eq (h ▸ PeriodEntry.unites_entry m')
  · apply PeriodEntry.isLeast_isGreatest_bounds
    rw [Set.nonempty_iff_ne_empty, ne_eq, ← PeriodEntry.isEmpty_iff_offsets, h]
    exact Bool.false_ne_true

def insertedTerm : Making Bitmap :=
  .insert (.insert (.given "20240101" .empty) "A == 'x'" (.ofList [1])) "A == 'x'" (.ofList [7])

def mergedTerm : Making Bitmap :=
  .merge (.insert (.given "20240101" .empty) "A == 'x'" (.ofList [7]))
    (.insert (.given "20240102" .empty) "A == 'x'" (.ofList [1]))

theorem entries_unite_parts_ofTerm :
    insertedTerm.parts = mergedTerm.parts ∧
      insertedTerm.entry.terms = mergedTerm.entry.terms ∧
      mergedTerm.entry.isEmpty = false ∧
      IsLeast mergedTerm.entry.offsets 1 ∧ IsGreatest mergedTerm.entry.offsets 7 := by
  obtain ⟨-, hterms, -, hbounds, -⟩ := entries_unite_parts
  have hempty : mergedTerm.entry.isEmpty = false := by decide
  have hparts : insertedTerm.parts = mergedTerm.parts := rfl
  have hseven : mergedTerm.entry.bounds = (1, 7) := by decide +kernel
  have henclosed := (hbounds mergedTerm.entry).2 hempty
  rw [hseven] at henclosed
  exact ⟨hparts, hterms _ _ hparts, hempty, henclosed⟩

end Index

end ShardedSearch
