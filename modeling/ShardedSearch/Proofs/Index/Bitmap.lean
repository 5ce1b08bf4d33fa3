import Mathlib.Algebra.Group.Nat.Defs
import Mathlib.Data.List.Basic
import ShardedSearch.Index.Bitmap

/-! # Bitmaps

The least and the greatest offset of a bitmap enclose all others. A bitmap is read back from
its bytes, which are the only bytes of it that do not end in zero. The union of two bitmaps
takes no more bytes than the longer of them.
-/

namespace ShardedSearch.Index

open Wire (Bytes)

namespace Bitmap

variable {b : Bitmap} {i : Nat}

theorem isEmpty_iff : b.isEmpty = true ↔ ∀ i, b.contains i = false := by
  rw [isEmpty, decide_eq_true_eq]
  constructor
  · intro h i
    rw [contains, h]
    exact Nat.zero_testBit i
  · intro h
    exact Nat.eq_of_testBit_eq fun i => (h i).trans (Nat.zero_testBit i).symm

theorem exists_min?_le (h : b.contains i = true) : ∃ m, b.min? = some m ∧ m ≤ i := by
  have hi := mem_toList.mpr h
  have hasc := toList_ascending b
  rw [min?]
  cases hl : b.toList with
  | nil =>
    rw [hl] at hi
    cases hi
  | cons m ms =>
    rw [hl] at hi hasc
    refine ⟨m, rfl, ?_⟩
    rcases List.mem_cons.mp hi with rfl | hi
    · exact Nat.le_refl _
    · exact Nat.le_of_lt ((List.pairwise_cons.mp hasc).1 i hi)

theorem exists_le_max? (h : b.contains i = true) : ∃ m, b.max? = some m ∧ i ≤ m := by
  have hi := mem_toList.mpr h
  have hasc := toList_ascending b
  rw [max?]
  rcases List.eq_nil_or_concat b.toList with hl | ⟨ms, m, hl⟩
  · rw [hl] at hi
    cases hi
  · rw [List.concat_eq_append] at hl
    rw [hl] at hi hasc ⊢
    refine ⟨m, List.getLast?_concat, ?_⟩
    rcases List.mem_append.mp hi with hi | hi
    · exact Nat.le_of_lt ((List.pairwise_append.mp hasc).2.2 i hi m (List.mem_singleton_self m))
    · exact Nat.le_of_eq (List.mem_singleton.mp hi)

/-! ### Bytes -/

variable {mask n : Nat} {bs : Bytes}

theorem bytesMask_lt (bs : Bytes) : bytesMask bs < 256 ^ bs.length := by
  induction bs with
  | nil => exact Nat.one_pos
  | cons x xs ih =>
    have hx := x.toNat_lt
    rw [bytesMask, List.length_cons, Nat.pow_succ]
    omega

theorem bytesMask_maskBytes (mask : Nat) : bytesMask (maskBytes mask) = mask := by
  fun_induction maskBytes mask with
  | case1 => rfl
  | case2 mask h ih =>
    have hb : (mask % 256).toUInt8.toNat = mask % 256 := by simp
    rw [bytesMask, ih, hb]
    omega

theorem length_maskBytes_le (h : mask < 256 ^ n) : (maskBytes mask).length ≤ n := by
  induction n generalizing mask with
  | zero =>
    obtain rfl : mask = 0 := by omega
    rw [maskBytes, if_pos rfl]
    exact Nat.le_refl 0
  | succ n ih =>
    rw [maskBytes]
    split
    · exact Nat.zero_le _
    · rw [List.length_cons]
      refine Nat.succ_le_succ (ih ?_)
      rw [Nat.div_lt_iff_lt_mul (by decide)]
      rwa [Nat.pow_succ] at h

theorem ofBytes_toBytes (b : Bitmap) : ofBytes b.toBytes = b := by
  rw [ofBytes, chunksMask_eq, toBytes, chunksBytes_eq, bytesMask_maskBytes]

theorem getLast?_maskBytes_ne_zero (mask : Nat) : (maskBytes mask).getLast? ≠ some 0 := by
  fun_induction maskBytes mask with
  | case1 => nofun
  | case2 mask h ih =>
    rw [List.getLast?_cons]
    cases hl : (maskBytes (mask / 256)).getLast? with
    | some x =>
      rw [hl] at ih
      exact ih
    | none =>
      -- No byte follows, so the byte has all of the mask.
      have hd := bytesMask_maskBytes (mask / 256)
      rw [List.getLast?_eq_none_iff.mp hl, bytesMask] at hd
      have hb : (mask % 256).toUInt8.toNat = mask % 256 := by simp
      intro he
      rw [Option.getD_none, Option.some.injEq] at he
      rw [he, UInt8.toNat_zero] at hb
      omega

theorem maskBytes_add_mul {x : UInt8} (h : x.toNat + 256 * mask ≠ 0) :
    maskBytes (x.toNat + 256 * mask) = x :: maskBytes mask := by
  have hx := x.toNat_lt
  have hmod : (x.toNat + 256 * mask) % 256 = x.toNat := by omega
  have hdiv : (x.toNat + 256 * mask) / 256 = mask := by omega
  rw [maskBytes, if_neg h, hmod, hdiv]
  simp

theorem maskBytes_bytesMask (h : bs.getLast? ≠ some 0) : maskBytes (bytesMask bs) = bs := by
  induction bs with
  | nil =>
    rw [bytesMask, maskBytes, if_pos rfl]
  | cons x xs ih =>
    have hxs : xs.getLast? ≠ some 0 := by
      intro he
      rw [List.getLast?_cons, he] at h
      exact h rfl
    have hne : x.toNat + 256 * bytesMask xs ≠ 0 := by
      intro he
      have hmask : bytesMask xs = 0 := by omega
      have hbyte : x = 0 := by
        rw [← UInt8.toNat_inj, UInt8.toNat_zero]
        omega
      have hnil := ih hxs
      rw [hmask, maskBytes, if_pos rfl] at hnil
      rw [← hnil, hbyte] at h
      exact h rfl
    rw [bytesMask, maskBytes_add_mul hne, ih hxs]

theorem getLast?_toBytes_ne_zero (b : Bitmap) : b.toBytes.getLast? ≠ some 0 := by
  rw [toBytes, chunksBytes_eq]
  exact getLast?_maskBytes_ne_zero b.mask

theorem toBytes_ofBytes (h : bs.getLast? ≠ some 0) : (ofBytes bs).toBytes = bs := by
  rw [toBytes, chunksBytes_eq, ofBytes, chunksMask_eq, maskBytes_bytesMask h]

def FitsIn (n : Nat) (b : Bitmap) : Prop := b.mask < 256 ^ n

theorem fitsIn_ofBytes (h : bs.length ≤ n) : (ofBytes bs).FitsIn n := by
  rw [FitsIn, ofBytes, chunksMask_eq]
  exact Nat.lt_of_lt_of_le (bytesMask_lt bs) (Nat.pow_le_pow_right (by decide) h)

theorem FitsIn.union {a : Bitmap} (ha : a.FitsIn n) (hb : b.FitsIn n) : (a.union b).FitsIn n := by
  have hp : 256 ^ n = 2 ^ (8 * n) := by rw [Nat.pow_mul]
  unfold FitsIn at ha hb ⊢
  rw [hp] at ha hb ⊢
  exact Nat.or_lt_two_pow ha hb

theorem FitsIn.length_toBytes_le (h : b.FitsIn n) : b.toBytes.length ≤ n := by
  rw [toBytes, chunksBytes_eq]
  exact length_maskBytes_le h

end Bitmap

end ShardedSearch.Index
