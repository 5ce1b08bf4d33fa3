import Mathlib.Data.List.Sort
import ShardedSearch.Proofs.Index.BitmapSet

/-! # Padded bits

A set of offsets as a list of bits that grows when an offset past its end is set and that is as
long as the bytes it is loaded from. The same set has lists of many lengths; none of what is seen
of a set depends on the length.
-/

namespace ShardedSearch.Index

open Wire (Bytes)

/-! ### Positions of set bits -/

variable {xs : List Bool}

def firstOne? (xs : List Bool) : Option Nat := xs.findIdx? id

def lastOne? (xs : List Bool) : Option Nat :=
  (xs.reverse.findIdx? id).map (xs.length - 1 - ·)

theorem head?_findIdxs (xs : List Bool) (s : Nat) :
    (xs.findIdxs id s).head? = (firstOne? xs).map (· + s) := by
  induction xs generalizing s with
  | nil => rfl
  | cons x xs ih =>
    rw [List.findIdxs_cons, firstOne?, List.findIdx?_cons]
    cases x with
    | true => simp
    | false =>
      rw [if_neg (by decide), if_neg (by decide), ih, Option.map_map]
      refine congrArg (Option.map · _) (funext fun i => ?_)
      simp only [Function.comp_apply]
      omega

theorem getLast?_findIdxs (xs : List Bool) : (xs.findIdxs id).getLast? = lastOne? xs := by
  induction xs using List.reverseRecOn with
  | nil => rfl
  | append_singleton xs x ih =>
    rw [List.findIdxs_append, lastOne?, List.reverse_append, List.reverse_singleton,
      List.singleton_append, List.findIdx?_cons, List.length_append, List.length_singleton]
    cases x with
    | true => simp
    | false =>
      have hnil : [false].findIdxs id (0 + xs.length) = [] := by simp
      rw [hnil, List.append_nil, ih, if_neg (by decide), Option.map_map, lastOne?]
      refine congrArg (Option.map · _) (funext fun i => ?_)
      simp only [Function.comp_apply]
      omega

theorem mem_findIdxs {i : Nat} : i ∈ xs.findIdxs id ↔ xs[i]?.getD false = true := by
  rw [List.mem_findIdxs_iff_exists_getElem_pos]
  constructor
  · rintro ⟨hi, hx⟩
    rw [List.getElem?_eq_getElem hi]
    exact hx
  · intro h
    by_cases hi : i < xs.length
    · rw [List.getElem?_eq_getElem hi] at h
      exact ⟨hi, h⟩
    · rw [List.getElem?_eq_none (Nat.le_of_not_lt hi)] at h
      cases h

/-! ### Setting bits of bytes -/

def setByteBit (bs : Bytes) (i : Nat) : Bytes :=
  bs.modify (i / 8) (· ||| 1 <<< (i % 8).toUInt8)

theorem length_setByteBit (bs : Bytes) (i : Nat) : (setByteBit bs i).length = bs.length :=
  List.length_modify ..

theorem testBit_or_one_shiftLeft (x : UInt8) {i j : Nat} (hi : i < 8) (hj : j < 8) :
    (x ||| 1 <<< i.toUInt8).toNat.testBit j = (x.toNat.testBit j || decide (i = j)) := by
  have hn : (i.toUInt8).toNat = i := by
    rw [Nat.toUInt8_eq, UInt8.toNat_ofNat']
    omega
  rw [UInt8.toNat_or, Nat.testBit_or, UInt8.toNat_shiftLeft, hn, Nat.mod_eq_of_lt hi,
    UInt8.toNat_one, Nat.one_shiftLeft, Nat.testBit_mod_two_pow, Nat.testBit_two_pow,
    decide_eq_true hj, Bool.true_and]

theorem byteBit_setByteBit {bs : Bytes} {i : Nat} (h : i / 8 < bs.length) (j : Nat) :
    byteBit (setByteBit bs i) j = (byteBit bs j || decide (i = j)) := by
  rw [byteBit, byteBit, setByteBit, List.getElem?_modify]
  by_cases hij : i / 8 = j / 8
  · have hlt : j / 8 < bs.length := hij ▸ h
    have hmod : i = j ↔ i % 8 = j % 8 := by omega
    rw [List.getElem?_eq_getElem hlt]
    simp only [if_pos hij, Option.map_eq_map, Option.map_some, Option.any_some, hmod]
    exact testBit_or_one_shiftLeft _ (Nat.mod_lt _ (by decide)) (Nat.mod_lt _ (by decide))
  · have hne : i ≠ j := fun he => hij (congrArg (· / 8) he)
    simp only [if_neg hij, Option.map_eq_map, Option.map_id']
    rw [decide_eq_false hne, Bool.or_false]

theorem byteBit_foldl_setByteBit {offsets : List Nat} {bs : Bytes}
    (h : ∀ i ∈ offsets, i / 8 < bs.length) (j : Nat) :
    byteBit (offsets.foldl setByteBit bs) j = (byteBit bs j || decide (j ∈ offsets)) := by
  induction offsets generalizing bs with
  | nil => simp
  | cons i offsets ih =>
    obtain ⟨hi, hs⟩ := List.forall_mem_cons.mp h
    rw [List.foldl_cons, ih (by rwa [length_setByteBit]), byteBit_setByteBit hi, Bool.or_assoc]
    simp [eq_comm]

theorem length_foldl_setByteBit (offsets : List Nat) (bs : Bytes) :
    (offsets.foldl setByteBit bs).length = bs.length := by
  induction offsets generalizing bs with
  | nil => rfl
  | cons i offsets ih => rw [List.foldl_cons, ih, length_setByteBit]

theorem byteBit_replicate_zero (n i : Nat) : byteBit (List.replicate n 0) i = false := by
  rw [byteBit, List.getElem?_replicate]
  split
  · exact Nat.zero_testBit _
  · rfl

/-! ### Bits -/

/-- Bits in the order of their offsets, with any number of unset bits after the highest. -/
structure Bits where
  bits : List Bool

namespace Bits

def empty : Bits := ⟨[]⟩

def byteBits (x : UInt8) : List Bool := (List.range 8).map x.toNat.testBit

def ofBytes (bs : Bytes) : Bits := ⟨bs.flatMap byteBits⟩

/-- Sets the bit of an offset, with unset bits up to it if there are too few. -/
def insert (offset : Nat) (b : Bits) : Bits :=
  ⟨(b.bits.rightpad (offset + 1) false).set offset true⟩

def contains (b : Bits) (offset : Nat) : Bool := b.bits[offset]?.getD false

def toList (b : Bits) : List Nat := b.bits.findIdxs id

def count (b : Bits) : Nat := b.bits.countP id

def isEmpty (b : Bits) : Bool := !b.bits.any id

def min? (b : Bits) : Option Nat := firstOne? b.bits

def max? (b : Bits) : Option Nat := lastOne? b.bits

def union (a b : Bits) : Bits := b.toList.foldl (fun a i => a.insert i) a

/-- As many zeros as the highest offset needs, with the bit of each offset set. -/
def toBytes (b : Bits) : Bytes :=
  match b.max? with
  | none => []
  | some m => b.toList.foldl setByteBit (List.replicate (m / 8 + 1) 0)

def view (b : Bits) : View where
  contains := b.contains
  toList := b.toList
  count := b.count
  isEmpty := b.isEmpty
  min? := b.min?
  max? := b.max?
  bytes := b.toBytes

/-- Bits are equal if their offsets are, whatever their lengths. -/
def holder : Holder Bits where
  empty := empty
  ofBytes := ofBytes
  insert := insert
  union := union
  view := view
  same a b := a.toList = b.toList

variable {b : Bits} {i : Nat}

theorem mem_toList_iff : i ∈ b.toList ↔ b.contains i = true := mem_findIdxs

theorem toList_pairwise (b : Bits) : b.toList.Pairwise (· < ·) := List.pairwise_findIdxs

theorem max?_eq_getLast? (b : Bits) : b.max? = b.toList.getLast? := (getLast?_findIdxs b.bits).symm

theorem min?_eq_head? (b : Bits) : b.min? = b.toList.head? := by
  rw [toList, head?_findIdxs, min?]
  exact Option.map_id'.symm

theorem isEmpty_eq (b : Bits) : b.isEmpty = b.toList.isEmpty := by
  rw [Bool.eq_iff_iff, List.isEmpty_iff, toList, List.findIdxs_eq_nil_iff, isEmpty]
  simp

theorem le_of_max? {m : Nat} (h : b.max? = some m) (hi : i ∈ b.toList) : i ≤ m :=
  ((isGreatest_toFinset_iff b.toList_pairwise m).mp (b.max?_eq_getLast? ▸ h)).2
    (List.mem_toFinset.mpr hi)

theorem byteBit_toBytes (b : Bits) (i : Nat) : byteBit b.toBytes i = b.contains i := by
  rw [toBytes]
  split
  · next h =>
    rw [max?_eq_getLast?, List.getLast?_eq_none_iff] at h
    rw [Bool.eq_iff_iff, ← mem_toList_iff, h]
    exact iff_of_false Bool.false_ne_true List.not_mem_nil
  · next m h =>
    have hlen : ∀ i ∈ b.toList, i / 8 < (List.replicate (m / 8 + 1) (0 : UInt8)).length := by
      intro i hi
      rw [List.length_replicate]
      exact Nat.lt_succ_of_le (Nat.div_le_div_right (le_of_max? h hi))
    rw [byteBit_foldl_setByteBit hlen, byteBit_replicate_zero, Bool.false_or, Bool.eq_iff_iff,
      decide_eq_true_eq, mem_toList_iff]

theorem getLast?_toBytes_ne_zero (b : Bits) : b.toBytes.getLast? ≠ some 0 := by
  intro hlast
  cases h : b.max? with
  | none =>
    rw [toBytes, h] at hlast
    cases hlast
  | some m =>
    have hm : b.contains m = true :=
      mem_toList_iff.mp (List.mem_of_getLast? (b.max?_eq_getLast? ▸ h))
    have hlen : b.toBytes.length = m / 8 + 1 := by
      rw [toBytes, h, length_foldl_setByteBit, List.length_replicate]
    rw [List.getLast?_eq_getElem?, hlen, Nat.add_sub_cancel] at hlast
    rw [← byteBit_toBytes, byteBit, hlast, Option.any_some, UInt8.toNat_zero,
      Nat.zero_testBit] at hm
    cases hm

theorem contains_ofBytes (bs : Bytes) (i : Nat) : (ofBytes bs).contains i = byteBit bs i := by
  rw [contains, ofBytes]
  induction bs generalizing i with
  | nil => rfl
  | cons x xs ih =>
    rw [List.flatMap_cons]
    have hlen : (byteBits x).length = 8 := by rw [byteBits, List.length_map, List.length_range]
    rcases Nat.lt_or_ge i 8 with hi | hi
    · rw [List.getElem?_append_left (by rwa [hlen]), byteBit_cons_of_lt hi, byteBits,
        List.getElem?_map, List.getElem?_range hi]
      rfl
    · obtain ⟨j, rfl⟩ := Nat.exists_eq_add_of_le' hi
      rw [List.getElem?_append_right (by omega), hlen, Nat.add_sub_cancel, byteBit_cons_add]
      exact ih j

theorem contains_insert (i : Nat) (b : Bits) (j : Nat) :
    (b.insert i).contains j = (b.contains j || decide (i = j)) := by
  have hlt : i < (b.bits.rightpad (i + 1) false).length := by
    rw [List.rightpad, List.length_append, List.length_replicate]
    omega
  rw [contains, insert, List.getElem?_set]
  by_cases hij : i = j
  · rw [if_pos hij, if_pos hlt, decide_eq_true hij, Bool.or_true]
    rfl
  · rw [if_neg hij, decide_eq_false hij, Bool.or_false, contains, List.rightpad,
      List.getElem?_append, List.getElem?_replicate]
    split
    · rfl
    · next h =>
      rw [List.getElem?_eq_none (Nat.le_of_not_lt h)]
      split <;> rfl

theorem contains_union (a b : Bits) (i : Nat) :
    (a.union b).contains i = (a.contains i || b.contains i) := by
  have hfold : ∀ (offsets : List Nat) (a : Bits),
      (offsets.foldl (fun a i => a.insert i) a).contains i =
        (a.contains i || decide (i ∈ offsets)) := by
    intro offsets
    induction offsets with
    | nil => simp
    | cons j offsets ih =>
      intro a
      rw [List.foldl_cons, ih, contains_insert, Bool.or_assoc]
      simp [eq_comm]
  rw [union, hfold]
  exact congrArg _ (Bool.eq_iff_iff.mpr (decide_eq_true_iff.trans mem_toList_iff))

theorem toList_eq_iff {a : Bits} : a.toList = b.toList ↔ ∀ i, a.contains i = b.contains i := by
  constructor
  · intro h i
    rw [Bool.eq_iff_iff, ← mem_toList_iff, h, mem_toList_iff]
  · intro h
    refine a.toList_pairwise.eq_of_mem_iff b.toList_pairwise fun i => ?_
    rw [mem_toList_iff, mem_toList_iff, h]

theorem lawful_holder : holder.Lawful where
  shows b := ⟨_, View.shows_of_ascending (v := b.view) b.toList_pairwise (fun _ => mem_toList_iff)
    (List.length_findIdxs).symm b.isEmpty_eq b.min?_eq_head? b.max?_eq_getLast? b.byteBit_toBytes
    b.getLast?_toBytes_ne_zero⟩
  empty _ := rfl
  ofBytes := contains_ofBytes
  insert := contains_insert
  union := contains_union
  same_iff _ _ := toList_eq_iff

end Bits

/-- Registers of bitmaps show what plain sets come to under the same steps, and so do registers
of bits of any lengths. -/
theorem bitmaps_hold_sets : Bitmap.holder.HoldsSets ∧ Bits.holder.HoldsSets :=
  ⟨Bitmap.lawful_holder.holdsSets, Bits.lawful_holder.holdsSets⟩

/-- Zeros after the highest offset are part of the bits and of nothing that is seen. -/
example : (Bits.ofBytes [36, 0, 0]).bits.length = 24 ∧
    Bits.holder.same (Bits.ofBytes [36, 0, 0]) ((Bits.empty.insert 5).insert 2) ∧
    (Bits.ofBytes [36, 0, 0]).toBytes = [36] := ⟨rfl, rfl, rfl⟩

end ShardedSearch.Index
