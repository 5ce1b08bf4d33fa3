import ShardedSearch.Wire.Form

/-! # Bitmaps

Finite sets of offsets, held as the bits of one number. In bytes, offset `i` is bit
`i % 8` of byte `i / 8`, and no byte follows the one with the highest offset.
-/

namespace ShardedSearch.Index

open Wire (Bytes)

/-- A finite set of offsets: the set bits of the mask. -/
structure Bitmap where
  mask : Nat
deriving DecidableEq

namespace Bitmap

def empty : Bitmap := ⟨0⟩

instance : EmptyCollection Bitmap := ⟨empty⟩

instance : Inhabited Bitmap := ⟨empty⟩

def contains (b : Bitmap) (offset : Nat) : Bool := b.mask.testBit offset

theorem ext_contains {a b : Bitmap} (h : ∀ i, a.contains i = b.contains i) : a = b := by
  cases a; cases b
  exact congrArg _ (Nat.eq_of_testBit_eq h)

def insert (offset : Nat) (b : Bitmap) : Bitmap := ⟨b.mask ||| 1 <<< offset⟩

def union (a b : Bitmap) : Bitmap := ⟨a.mask ||| b.mask⟩

def ofList (offsets : List Nat) : Bitmap := offsets.foldl (fun b i => b.insert i) empty

def isEmpty (b : Bitmap) : Bool := b.mask = 0

/-- Number of bits that are looked at together. -/
def wordSize : Nat := 1024

def wordOffsets (mask word : Nat) : List Nat :=
  let bits := (mask >>> (wordSize * word)) % (1 <<< wordSize)
  ((List.range wordSize).filter bits.testBit).map (wordSize * word + ·)

/-- The offsets in ascending order, word by word. -/
def toList (b : Bitmap) : List Nat :=
  (List.range (b.mask.log2 / wordSize + 1)).flatMap (wordOffsets b.mask)

def count (b : Bitmap) : Nat := b.toList.length

def min? (b : Bitmap) : Option Nat := b.toList.head?

def max? (b : Bitmap) : Option Nat := b.toList.getLast?

/-- The number whose digits to the base 256 are bytes, the lowest first. -/
def bytesMask : Bytes → Nat
  | [] => 0
  | x :: xs => x.toNat + 256 * bytesMask xs

def lowBytes : Nat → Nat → Bytes
  | 0, _ => []
  | n + 1, mask => (mask % 256).toUInt8 :: lowBytes n (mask / 256)

/-- All bytes of a number up to the highest that is not zero. -/
def maskBytes (mask : Nat) : Bytes :=
  if mask = 0 then [] else (mask % 256).toUInt8 :: maskBytes (mask / 256)
termination_by mask
decreasing_by omega

/-- How many values so many bytes can have. -/
def byteValues (n : Nat) : Nat := Nat.pow 256 n

theorem byteValues_succ (n : Nat) : byteValues (n + 1) = byteValues n * 256 := Nat.pow_succ ..

def chunkSize : Nat := 128

/-- As `bytesMask`, chunk by chunk. -/
def chunksMask (bs : Bytes) : Nat :=
  match _ : bs.drop chunkSize with
  | [] => bytesMask bs
  | x :: xs => bytesMask (bs.take chunkSize) + byteValues chunkSize * chunksMask (x :: xs)
termination_by bs.length
decreasing_by
  have := congrArg List.length ‹bs.drop chunkSize = x :: xs›
  simp only [List.length_drop, List.length_cons, chunkSize] at this ⊢
  omega

/-- As `maskBytes`, chunk by chunk. -/
def chunksBytes (mask : Nat) : Bytes :=
  if mask < byteValues chunkSize then maskBytes mask
  else
    lowBytes chunkSize (mask % byteValues chunkSize) ++ chunksBytes (mask / byteValues chunkSize)
termination_by mask
decreasing_by
  have hb : 1 < byteValues chunkSize := by decide +kernel
  exact Nat.div_lt_self (by omega) hb

/-- The offsets of bytes, eight to a byte. -/
def ofBytes (bs : Bytes) : Bitmap := ⟨chunksMask bs⟩

/-- The shortest bytes with these offsets. -/
def toBytes (b : Bitmap) : Bytes := chunksBytes b.mask

def text (b : Bitmap) : String :=
  "\x7b" ++ ", ".intercalate (b.toList.map toString) ++ "\x7d"

@[simp]
theorem contains_empty (i : Nat) : empty.contains i = false := Nat.zero_testBit i

@[simp]
theorem contains_insert (b : Bitmap) (i j : Nat) :
    (b.insert i).contains j = (b.contains j || decide (i = j)) := by
  simp only [contains, insert, Nat.testBit_or, Nat.one_shiftLeft, Nat.testBit_two_pow]

@[simp]
theorem contains_union (a b : Bitmap) (i : Nat) :
    (a.union b).contains i = (a.contains i || b.contains i) := Nat.testBit_or ..

theorem maskBytes_eq_append {n mask : Nat} (h : byteValues n ≤ mask) :
    maskBytes mask = lowBytes n (mask % byteValues n) ++ maskBytes (mask / byteValues n) := by
  induction n generalizing mask with
  | zero => simp [lowBytes, byteValues]
  | succ n ih =>
    have hp : 0 < byteValues (n + 1) := Nat.pow_pos (by decide)
    have hd : byteValues n ≤ mask / 256 := by
      rw [Nat.le_div_iff_mul_le (by decide)]
      rwa [byteValues_succ] at h
    rw [maskBytes, if_neg (by omega), ih hd, lowBytes, byteValues_succ, Nat.mul_comm _ 256,
      Nat.mod_mul_right_mod, Nat.mod_mul_right_div_self, Nat.div_div_eq_div_mul,
      List.cons_append]

theorem chunksBytes_eq (mask : Nat) : chunksBytes mask = maskBytes mask := by
  fun_induction chunksBytes mask with
  | case1 => rfl
  | case2 mask h ih => rw [maskBytes_eq_append (Nat.not_lt.mp h), ih]

theorem bytesMask_append (a b : Bytes) :
    bytesMask (a ++ b) = bytesMask a + byteValues a.length * bytesMask b := by
  induction a with
  | nil => simp [bytesMask, byteValues]
  | cons x xs ih =>
    simp only [List.cons_append, bytesMask, ih, List.length_cons, byteValues_succ]
    rw [Nat.mul_add, ← Nat.mul_assoc, Nat.mul_comm 256 (byteValues _), Nat.add_assoc]

theorem chunksMask_eq (bs : Bytes) : chunksMask bs = bytesMask bs := by
  fun_induction chunksMask bs with
  | case1 => rfl
  | case2 bs x xs h ih =>
    have hl : chunkSize ≤ bs.length := by
      have := congrArg List.length h
      simp only [List.length_drop, List.length_cons] at this
      omega
    have := bytesMask_append (bs.take chunkSize) (bs.drop chunkSize)
    rw [List.take_append_drop, List.length_take_of_le hl, h] at this
    rw [ih, this]

theorem lt_of_contains {b : Bitmap} {i : Nat} (h : b.contains i = true) :
    i < b.mask.log2 + 1 :=
  Classical.byContradiction fun hn => by
    have hlt : b.mask < 2 ^ i :=
      Nat.lt_of_lt_of_le Nat.lt_log2_self (Nat.pow_le_pow_right (by decide) (Nat.le_of_not_lt hn))
    simp [contains, Nat.testBit_lt_two_pow hlt] at h

theorem mem_wordOffsets {mask word i : Nat} :
    i ∈ wordOffsets mask word ↔ i / wordSize = word ∧ mask.testBit i = true := by
  simp only [wordOffsets, wordSize, List.mem_map, List.mem_filter, List.mem_range,
    Nat.one_shiftLeft, Nat.testBit_mod_two_pow, Nat.testBit_shiftRight, Bool.and_eq_true, decide_eq_true_eq]
  constructor
  · rintro ⟨k, ⟨hk, -, hb⟩, rfl⟩
    exact ⟨by omega, hb⟩
  · rintro ⟨rfl, hb⟩
    refine ⟨i % 1024, ⟨Nat.mod_lt _ (by decide), Nat.mod_lt _ (by decide), ?_⟩, Nat.div_add_mod ..⟩
    rwa [Nat.div_add_mod]

@[simp]
theorem mem_toList {b : Bitmap} {i : Nat} : i ∈ b.toList ↔ b.contains i = true := by
  simp only [toList, List.mem_flatMap, List.mem_range, mem_wordOffsets]
  constructor
  · rintro ⟨_, -, -, hb⟩
    exact hb
  · intro h
    exact ⟨_, Nat.lt_succ_of_le (Nat.div_le_div_right (Nat.le_of_lt_succ (lt_of_contains h))),
      rfl, h⟩

theorem toList_ascending (b : Bitmap) : b.toList.Pairwise (· < ·) := by
  refine List.pairwise_flatMap.mpr ⟨fun word _ => ?_, ?_⟩
  · refine List.pairwise_map.mpr ?_
    exact (List.pairwise_lt_range.sublist List.filter_sublist).imp fun h =>
      Nat.add_lt_add_left h _
  · refine List.pairwise_lt_range.imp fun h i hi j hj => ?_
    have hi := (mem_wordOffsets.mp hi).1
    have hj := (mem_wordOffsets.mp hj).1
    simp only [wordSize] at hi hj
    omega

end Bitmap

end ShardedSearch.Index
