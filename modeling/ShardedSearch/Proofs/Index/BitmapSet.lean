import Mathlib.Data.Finset.Card
import Mathlib.Data.List.DropRight
import Mathlib.Data.List.Nodup
import Mathlib.Logic.Function.Basic
import Mathlib.Order.Bounds.Basic
import ShardedSearch.Proofs.Index.Bitmap
import ShardedSearch.Proofs.Order.Collections

/-! # Bitmaps as sets

Registers are loaded from bytes, get offsets and are joined. Whatever holds their contents shows
the set that the same steps make of plain sets, if every value of it shows a set at all and each
step changes the offsets as it should. Bitmaps do, and so do lists of bits, in which any number
of unset bits may follow the highest offset: what is shown does not depend on their length.
-/

namespace ShardedSearch.Index

open Wire (Bytes)

/-! ### Offsets of bytes -/

/-- Whether bytes have an offset, eight of them to a byte. -/
def byteBit (bs : Bytes) (i : Nat) : Bool := bs[i / 8]?.any fun x => x.toNat.testBit (i % 8)

theorem byteBit_cons_of_lt {x : UInt8} {xs : Bytes} {i : Nat} (h : i < 8) :
    byteBit (x :: xs) i = x.toNat.testBit i := by
  rw [byteBit, Nat.div_eq_of_lt h, Nat.mod_eq_of_lt h]
  rfl

theorem byteBit_cons_add (x : UInt8) (xs : Bytes) (i : Nat) :
    byteBit (x :: xs) (i + 8) = byteBit xs i := by
  rw [byteBit, Nat.add_div_right i (by decide), Nat.add_mod_right]
  rfl

theorem byteBit_append_zero (bs : Bytes) (i : Nat) : byteBit (bs ++ [0]) i = byteBit bs i := by
  rw [byteBit, byteBit, List.getElem?_append]
  split
  · rfl
  · next h =>
    rw [List.getElem?_eq_none (Nat.le_of_not_lt h), List.getElem?_singleton]
    split
    · exact Nat.zero_testBit _
    · rfl

theorem Bitmap.contains_ofBytes (bs : Bytes) (i : Nat) :
    (ofBytes bs).contains i = byteBit bs i := by
  change (chunksMask bs).testBit i = _
  rw [chunksMask_eq]
  induction bs generalizing i with
  | nil => exact Nat.zero_testBit i
  | cons x xs ih =>
    rw [bytesMask, Nat.add_comm, Nat.testBit_two_pow_mul_add (i := 8) _ x.toNat_lt]
    split
    · next h => rw [byteBit_cons_of_lt h]
    · next h =>
      obtain ⟨j, rfl⟩ := Nat.exists_eq_add_of_le' (Nat.le_of_not_lt h)
      rw [byteBit_cons_add, Nat.add_sub_cancel, ih]

theorem eq_of_byteBit {bs cs : Bytes} (hb : bs.getLast? ≠ some 0) (hc : cs.getLast? ≠ some 0)
    (h : ∀ i, byteBit bs i = byteBit cs i) : bs = cs := by
  have hmap : Bitmap.ofBytes bs = Bitmap.ofBytes cs := Bitmap.ext_contains fun i => by
    rw [Bitmap.contains_ofBytes, Bitmap.contains_ofBytes, h]
  rw [← Bitmap.toBytes_ofBytes hb, hmap, Bitmap.toBytes_ofBytes hc]

def trimmed (bs : Bytes) : Bytes := bs.rdropWhile (decide <| · = 0)

theorem getLast?_trimmed_ne_zero (bs : Bytes) : (trimmed bs).getLast? ≠ some 0 := by
  induction bs using List.reverseRecOn with
  | nil => nofun
  | append_singleton xs x ih =>
    rw [trimmed, List.rdropWhile_concat]
    split
    · exact ih
    · next h =>
      rw [List.getLast?_concat, ne_eq, Option.some.injEq]
      simpa using h

theorem byteBit_trimmed (bs : Bytes) (i : Nat) : byteBit (trimmed bs) i = byteBit bs i := by
  induction bs using List.reverseRecOn with
  | nil => rfl
  | append_singleton xs x ih =>
    rw [trimmed, List.rdropWhile_concat]
    split
    · next h =>
      obtain rfl : x = 0 := of_decide_eq_true h
      rw [byteBit_append_zero, ← ih, trimmed]
    · rfl

/-! ### What is shown of a set -/

structure View where
  contains : Nat → Bool
  toList : List Nat
  count : Nat
  isEmpty : Bool
  min? : Option Nat
  max? : Option Nat
  bytes : Bytes

/-- Whether all of it is that of a given set: the offsets in ascending order, their number, the
least and the greatest, and the shortest bytes with them. -/
structure View.Shows (v : View) (s : Finset Nat) : Prop where
  contains : ∀ i, v.contains i = true ↔ i ∈ s
  ascending : v.toList.Pairwise (· < ·)
  mem_toList : ∀ i, i ∈ v.toList ↔ i ∈ s
  count : v.count = s.card
  isEmpty : v.isEmpty = true ↔ s = ∅
  min? : ∀ i, v.min? = some i ↔ IsLeast (s : Set Nat) i
  max? : ∀ i, v.max? = some i ↔ IsGreatest (s : Set Nat) i
  bytes : ∀ i, byteBit v.bytes i = true ↔ i ∈ s
  shortest : v.bytes.getLast? ≠ some 0

variable {v w : View} {s t : Finset Nat}

theorem View.Shows.bytes_eq_iff (h : v.Shows s) (h' : w.Shows t) : v.bytes = w.bytes ↔ s = t := by
  constructor
  · intro he
    refine Finset.ext fun i => ?_
    rw [← h.bytes, he, h'.bytes]
  · rintro rfl
    refine eq_of_byteBit h.shortest h'.shortest fun i => ?_
    rw [Bool.eq_iff_iff, h.bytes, h'.bytes]

theorem isLeast_toFinset_iff {xs : List Nat} (h : xs.Pairwise (· < ·)) (i : Nat) :
    xs.head? = some i ↔ IsLeast (xs.toFinset : Set Nat) i := by
  rw [IsLeast, mem_lowerBounds, Finset.mem_coe, List.mem_toFinset]
  cases xs with
  | nil => simp
  | cons x xs =>
    obtain ⟨hx, -⟩ := List.pairwise_cons.mp h
    rw [List.head?_cons, Option.some.injEq]
    constructor
    · rintro rfl
      refine ⟨List.mem_cons_self, fun j hj => ?_⟩
      rcases List.mem_cons.mp (List.mem_toFinset.mp hj) with rfl | hj
      · exact Nat.le_refl _
      · exact Nat.le_of_lt (hx j hj)
    · rintro ⟨hi, hle⟩
      have hxi := hle x (List.mem_toFinset.mpr List.mem_cons_self)
      rcases List.mem_cons.mp hi with rfl | hi
      · rfl
      · exact absurd hxi (Nat.not_le_of_lt (hx i hi))

theorem isGreatest_toFinset_iff {xs : List Nat} (h : xs.Pairwise (· < ·)) (i : Nat) :
    xs.getLast? = some i ↔ IsGreatest (xs.toFinset : Set Nat) i := by
  rw [getLast?_eq_some_iff_of_ascending (f := id) h, IsGreatest, mem_upperBounds, Finset.mem_coe,
    List.mem_toFinset]
  refine and_congr_right' (forall_congr' fun j => ?_)
  rw [Finset.mem_coe, List.mem_toFinset]
  exact imp_congr_right fun _ => Nat.not_lt

theorem View.shows_of_ascending (hasc : v.toList.Pairwise (· < ·))
    (hmem : ∀ i, i ∈ v.toList ↔ v.contains i = true) (hcount : v.count = v.toList.length)
    (hempty : v.isEmpty = v.toList.isEmpty) (hmin : v.min? = v.toList.head?)
    (hmax : v.max? = v.toList.getLast?) (hbytes : ∀ i, byteBit v.bytes i = v.contains i)
    (hshort : v.bytes.getLast? ≠ some 0) : v.Shows v.toList.toFinset where
  contains i := by rw [List.mem_toFinset, hmem]
  ascending := hasc
  mem_toList i := by rw [List.mem_toFinset]
  count := by
    rw [hcount, List.toFinset_card_of_nodup (hasc.imp Nat.ne_of_lt)]
  isEmpty := by rw [hempty, List.isEmpty_iff, List.toFinset_eq_empty_iff]
  min? i := by rw [hmin, isLeast_toFinset_iff hasc]
  max? i := by rw [hmax, isGreatest_toFinset_iff hasc]
  bytes i := by rw [hbytes, List.mem_toFinset, hmem]
  shortest := hshort

/-! ### Registers -/

/-- What is done with registers that hold sets of offsets. -/
inductive RegisterStep where
  | load (register : Nat) (bytes : Bytes)
  | insert (register offset : Nat)
  /-- Adds the offsets of the other register. -/
  | union (register other : Nat)

def byteSet (bs : Bytes) : Finset Nat := (Finset.range (8 * bs.length)).filter (byteBit bs ·)

theorem mem_byteSet {bs : Bytes} {i : Nat} : i ∈ byteSet bs ↔ byteBit bs i = true := by
  rw [byteSet, Finset.mem_filter, Finset.mem_range, and_iff_right_iff_imp]
  intro h
  rw [byteBit, Option.any_eq_true_iff_get] at h
  obtain ⟨hsome, -⟩ := h
  have hlt := (List.getElem?_eq_some_iff.mp (Option.some_get hsome).symm).1
  omega

def setStep (registers : Nat → Finset Nat) : RegisterStep → Nat → Finset Nat
  | .load r bs => Function.update registers r (byteSet bs)
  | .insert r i => Function.update registers r (insert i (registers r))
  | .union r r' => Function.update registers r (registers r ∪ registers r')

def registerSets (steps : List RegisterStep) : Nat → Finset Nat :=
  steps.foldl setStep fun _ => ∅

/-- A way to hold sets of offsets, and what is seen of them. -/
structure Holder (α : Type) where
  empty : α
  ofBytes : Bytes → α
  insert : Nat → α → α
  union : α → α → α
  view : α → View
  /-- Whether two values are taken to be equal. -/
  same : α → α → Prop

namespace Holder

variable {α : Type} (h : Holder α)

def step (registers : Nat → α) : RegisterStep → Nat → α
  | .load r bs => Function.update registers r (h.ofBytes bs)
  | .insert r i => Function.update registers r (h.insert i (registers r))
  | .union r r' => Function.update registers r (h.union (registers r) (registers r'))

def run (steps : List RegisterStep) : Nat → α := steps.foldl h.step fun _ => h.empty

def has (a : α) (i : Nat) : Bool := (h.view a).contains i

/-- Every value shows some set, and all operations do to the offsets what they should. -/
structure Lawful : Prop where
  shows : ∀ a, ∃ s, (h.view a).Shows s
  empty : ∀ i, h.has h.empty i = false
  ofBytes : ∀ bs i, h.has (h.ofBytes bs) i = byteBit bs i
  insert : ∀ i a j, h.has (h.insert i a) j = (h.has a j || decide (i = j))
  union : ∀ a b i, h.has (h.union a b) i = (h.has a i || h.has b i)
  same_iff : ∀ a b, h.same a b ↔ ∀ i, h.has a i = h.has b i

/-- Whether registers show the sets that plain sets come to, values are the same if the sets or
the bytes are, are read back from their bytes, and have the bytes that they were loaded from
but for zeros at the end. -/
structure HoldsSets : Prop where
  shows : ∀ steps r, (h.view (h.run steps r)).Shows (registerSets steps r)
  same_iff : ∀ steps r r',
    h.same (h.run steps r) (h.run steps r') ↔ registerSets steps r = registerSets steps r'
  bytes_eq_iff : ∀ a b, (h.view a).bytes = (h.view b).bytes ↔ h.same a b
  ofBytes_bytes : ∀ a, h.same (h.ofBytes (h.view a).bytes) a
  bytes_ofBytes : ∀ bs, (h.view (h.ofBytes bs)).bytes = trimmed bs

variable {h} {a b : α} {registers : Nat → α}

/-- A step does to the registers what it does to sets. -/
theorem Lawful.has_step_iff (hl : h.Lawful) {ss : Nat → Finset Nat}
    (hr : ∀ r i, h.has (registers r) i = true ↔ i ∈ ss r) (step : RegisterStep) (r i : Nat) :
    h.has (h.step registers step r) i = true ↔ i ∈ setStep ss step r := by
  cases step with
  | load r' bs =>
    rw [Holder.step, setStep, Function.update_apply, Function.update_apply]
    split
    · rw [hl.ofBytes, mem_byteSet]
    · exact hr r i
  | insert r' j =>
    rw [Holder.step, setStep, Function.update_apply, Function.update_apply]
    split
    · rw [hl.insert, Bool.or_eq_true, hr, decide_eq_true_eq, Finset.mem_insert, or_comm, eq_comm]
    · exact hr r i
  | union r' r'' =>
    rw [Holder.step, setStep, Function.update_apply, Function.update_apply]
    split
    · rw [hl.union, Bool.or_eq_true, hr, hr, Finset.mem_union]
    · exact hr r i

theorem Lawful.has_run_iff (hl : h.Lawful) (steps : List RegisterStep) (r i : Nat) :
    h.has (h.run steps r) i = true ↔ i ∈ registerSets steps r := by
  have hfold : ∀ (registers : Nat → α) (ss : Nat → Finset Nat),
      (∀ r i, h.has (registers r) i = true ↔ i ∈ ss r) →
      (h.has (steps.foldl h.step registers r) i = true ↔ i ∈ steps.foldl setStep ss r) := by
    induction steps with
    | nil => exact fun _ _ hr => hr r i
    | cons step steps ih => exact fun _ _ hr => ih _ _ (hl.has_step_iff hr step)
  exact hfold _ _ fun _ i => by simp [hl.empty i]

theorem Lawful.same_iff_of_shows (hl : h.Lawful) {s t : Finset Nat} (ha : (h.view a).Shows s)
    (hb : (h.view b).Shows t) : h.same a b ↔ s = t := by
  rw [hl.same_iff, Finset.ext_iff]
  refine forall_congr' fun i => ?_
  rw [Bool.eq_iff_iff]
  exact iff_congr (ha.contains i) (hb.contains i)

/-- Lawful operations make of registers what plain sets do. -/
theorem Lawful.holdsSets (hl : h.Lawful) : h.HoldsSets := by
  have hshows : ∀ steps r, (h.view (h.run steps r)).Shows (registerSets steps r) := by
    intro steps r
    obtain ⟨s, hs⟩ := hl.shows (h.run steps r)
    have heq : s = registerSets steps r :=
      Finset.ext fun i => (hs.contains i).symm.trans (hl.has_run_iff steps r i)
    exact heq ▸ hs
  refine ⟨hshows, fun steps r r' => hl.same_iff_of_shows (hshows steps r) (hshows steps r'),
    fun a b => ?_, fun a => ?_, fun bs => ?_⟩
  · obtain ⟨s, hs⟩ := hl.shows a
    obtain ⟨t, ht⟩ := hl.shows b
    rw [hs.bytes_eq_iff ht, hl.same_iff_of_shows hs ht]
  · obtain ⟨s, hs⟩ := hl.shows a
    refine (hl.same_iff _ _).mpr fun i => ?_
    rw [hl.ofBytes, Bool.eq_iff_iff, hs.bytes]
    exact (hs.contains i).symm
  · obtain ⟨s, hs⟩ := hl.shows (h.ofBytes bs)
    refine eq_of_byteBit hs.shortest (getLast?_trimmed_ne_zero bs) fun i => ?_
    rw [byteBit_trimmed, Bool.eq_iff_iff, hs.bytes, ← hs.contains, ← hl.ofBytes bs i]
    rfl

end Holder

/-! ### Bitmaps -/

namespace Bitmap

def view (b : Bitmap) : View where
  contains := b.contains
  toList := b.toList
  count := b.count
  isEmpty := b.isEmpty
  min? := b.min?
  max? := b.max?
  bytes := b.toBytes

def holder : Holder Bitmap where
  empty := empty
  ofBytes := ofBytes
  insert := insert
  union := union
  view := view
  same := (· = ·)

theorem byteBit_toBytes (b : Bitmap) (i : Nat) : byteBit b.toBytes i = b.contains i := by
  rw [← contains_ofBytes, ofBytes_toBytes]

theorem isEmpty_eq_isEmpty_toList (b : Bitmap) : b.isEmpty = b.toList.isEmpty := by
  rw [Bool.eq_iff_iff, isEmpty_iff, List.isEmpty_iff, List.eq_nil_iff_forall_not_mem]
  exact forall_congr' fun i => by rw [mem_toList, Bool.not_eq_true]

theorem lawful_holder : holder.Lawful where
  shows b := ⟨_, View.shows_of_ascending (v := b.view) b.toList_ascending (fun _ => mem_toList) rfl
    b.isEmpty_eq_isEmpty_toList rfl rfl b.byteBit_toBytes b.getLast?_toBytes_ne_zero⟩
  empty := contains_empty
  ofBytes := contains_ofBytes
  insert i b j := contains_insert b i j
  union := contains_union
  same_iff _ _ := ⟨fun h _ => h ▸ rfl, ext_contains⟩

end Bitmap

end ShardedSearch.Index
