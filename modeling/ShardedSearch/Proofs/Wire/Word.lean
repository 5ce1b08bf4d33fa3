import Mathlib.Data.Nat.Bitwise
import ShardedSearch.Proofs.Wire.Varint

/-! # Varints of words

Varints written and read on words of 64 bits: masks take the high bit off a byte, shifts put
seven bits at their place and a bitwise or joins them. No bit is lost on the way, so these
are the varints of numbers.
-/

namespace ShardedSearch.Wire.Varint

variable {position : Nat} {b : UInt8} {bs : Bytes} {word : UInt64}

/-! ### Bits of bytes and words -/

theorem toNat_and_mask (b : UInt8) : (b &&& 0x7F).toNat = b.toNat % 128 := by
  rw [UInt8.toNat_and]
  exact Nat.and_two_pow_sub_one_eq_mod b.toNat 7

theorem and_highBit_eq_zero_iff (b : UInt8) : b &&& 0x80 = 0 ↔ b.toNat < 128 := by
  have hdigit : b.toNat / 128 % 2 = b.toNat / 128 := by
    have := b.toNat_lt
    omega
  have hbit : (b &&& 0x80).toNat = b.toNat / 128 * 128 := by
    rw [UInt8.toNat_and]
    refine (Nat.and_two_pow b.toNat 7).trans ?_
    rw [Nat.toNat_testBit]
    exact congrArg (· * 128) hdigit
  rw [← UInt8.toNat_inj, hbit]
  change b.toNat / 128 * 128 = 0 ↔ _
  omega

theorem toNat_or_highBit (h : b.toNat < 128) : (b ||| 0x80).toNat = b.toNat + 128 := by
  rw [UInt8.toNat_or, Nat.or_comm]
  exact (Nat.two_pow_add_eq_or_of_lt (i := 7) h 1).symm.trans (Nat.add_comm ..)

theorem toNat_shiftRight_seven (word : UInt64) : (word >>> 7).toNat = word.toNat / 128 := by
  rw [UInt64.toNat_shiftRight]
  exact Nat.shiftRight_eq_div_pow ..

/-! ### Seven bits at their place -/

def put (position : Nat) (word : UInt64) (b : UInt8) : UInt64 :=
  word ||| (b &&& 0x7F).toUInt64 <<< (7 * position).toUInt64

/-- Bits put above those of a word, as far up as there is room, are added to it. -/
theorem toNat_put (hp : position ≤ lastPosition) (hword : word.toNat < 2 ^ (7 * position))
    (hbit : ¬ (position = lastPosition ∧ 1 < b.toNat % 128)) :
    (put position word b).toNat = word.toNat + 2 ^ (7 * position) * (b.toNat % 128) := by
  have hroom : 2 ^ (7 * position) * (b.toNat % 128) < 2 ^ 64 := by
    have hsum : 7 * position + (64 - 7 * position) = 64 := by
      rw [lastPosition] at hp
      omega
    rw [← hsum, Nat.pow_add]
    exact Nat.mul_lt_mul_of_pos_left (payload_lt_two_pow hp (Nat.mod_lt _ (by decide)) hbit)
      (Nat.two_pow_pos _)
  have hshift : (7 * position).toUInt64.toNat % 64 = 7 * position := by
    rw [lastPosition] at hp
    change 7 * position % 2 ^ 64 % 64 = 7 * position
    omega
  rw [put, UInt64.toNat_or, UInt64.toNat_shiftLeft, UInt8.toNat_toUInt64, toNat_and_mask, hshift,
    Nat.shiftLeft_eq, Nat.mul_comm, Nat.mod_eq_of_lt hroom, Nat.or_comm,
    ← Nat.two_pow_add_eq_or_of_lt hword, Nat.add_comm]

theorem toNat_put_lt (hp : position < lastPosition) (hword : word.toNat < 2 ^ (7 * position)) :
    (put position word b).toNat < 2 ^ (7 * (position + 1)) := by
  rw [toNat_put (Nat.le_of_lt hp) hword fun h => Nat.ne_of_lt hp h.1, Nat.mul_succ, Nat.pow_add]
  calc word.toNat + 2 ^ (7 * position) * (b.toNat % 128)
    _ < 2 ^ (7 * position) + 2 ^ (7 * position) * (b.toNat % 128) := Nat.add_lt_add_right hword _
    _ = 2 ^ (7 * position) * (b.toNat % 128 + 1) := by rw [Nat.mul_succ, Nat.add_comm]
    _ ≤ 2 ^ (7 * position) * 2 ^ 7 := Nat.mul_le_mul_left _ (Nat.mod_lt _ (by decide))

/-! ### Encoding -/

def encodeWord (word : UInt64) : Bytes :=
  if word < 0x80 then [word.toUInt8]
  else (word.toUInt8 &&& 0x7F ||| 0x80) :: encodeWord (word >>> 7)
termination_by word.toNat
decreasing_by
  rename_i h
  have hle : 128 ≤ word.toNat := Nat.not_lt.mp h
  rw [toNat_shiftRight_seven]
  omega

theorem encodeWord_eq (word : UInt64) : encodeWord word = encode word.toNat := by
  fun_induction encodeWord word with
  | case1 word h =>
    have hlt : word.toNat < 128 := h
    rw [encode_of_lt hlt]
    rfl
  | case2 word h ih =>
    have hlt : ¬ word.toNat < 128 := h
    have hlow : (word.toUInt8 &&& 0x7F).toNat = word.toNat % 128 := by
      rw [toNat_and_mask, UInt64.toNat_toUInt8]
      omega
    have hbyte : word.toUInt8 &&& 0x7F ||| 0x80 = (word.toNat % 128 + 128).toUInt8 := by
      rw [← UInt8.toNat_inj, toNat_or_highBit (by omega), hlow, toNat_toUInt8 (by omega)]
    rw [encode, if_neg hlt, hbyte, ih, toNat_shiftRight_seven]

/-! ### Decoding -/

/-- Joins the bytes from a position of a varint on to the word of those before it, up to a
byte that ends the varint or cannot be part of it. -/
def joinFrom (position : Nat) (word : UInt64) : Bytes → Option (Except WireError (UInt64 × Nat))
  | [] => none
  | b :: bs =>
    if position = lastPosition ∧ 1 < b &&& 0x7F then some (.error .varintOverflow)
    else if b &&& 0x80 = 0 then some (.ok (put position word b, position + 1))
    else joinFrom (position + 1) (put position word b) bs

def unended (count : Nat) : WireError :=
  if lastPosition < count then .varintOverflow else .incompleteVarint

theorem unended_of_le {count : Nat} (h : count ≤ lastPosition) :
    unended count = .incompleteVarint := if_neg (Nat.not_lt.mpr h)

theorem unended_of_lt {count : Nat} (h : lastPosition < count) :
    unended count = .varintOverflow := if_pos h

def decodeWord (bs : Bytes) : Except WireError (UInt64 × Nat) :=
  (joinFrom 0 0 (bs.take (lastPosition + 1))).getD (.error (unended bs.length))

theorem joinFrom_cons : joinFrom position word (b :: bs) =
    if position = lastPosition ∧ 1 < b.toNat % 128 then some (.error .varintOverflow)
    else if b.toNat < 128 then some (.ok (put position word b, position + 1))
    else joinFrom (position + 1) (put position word b) bs := by
  have hbit : 1 < b &&& 0x7F ↔ 1 < b.toNat % 128 := by
    rw [UInt8.lt_iff_toNat_lt, toNat_and_mask]
    rfl
  rw [joinFrom]
  simp only [hbit, and_highBit_eq_zero_iff]

def joined (position : Nat) (word : UInt64) (bs : Bytes) (p : Nat × Bytes) : UInt64 × Nat :=
  (.ofNat (word.toNat + 2 ^ (7 * position) * p.1), position + (bs.length - p.2.length))

section Joined

variable {n : Nat} {rest : Bytes}

theorem joined_last (hput : (put position word b).toNat =
      word.toNat + 2 ^ (7 * position) * (b.toNat % 128)) :
    joined position word (b :: bs) (b.toNat % 128, bs) = (put position word b, position + 1) := by
  have hend : position + ((b :: bs).length - bs.length) = position + 1 := by
    rw [List.length_cons, Nat.add_sub_cancel_left]
  rw [joined, hend, ← hput, UInt64.ofNat_toNat]

theorem joined_more (hlen : rest.length ≤ bs.length) (hput : (put position word b).toNat =
      word.toNat + 2 ^ (7 * position) * (b.toNat % 128)) :
    joined (position + 1) (put position word b) bs (n, rest) =
      joined position word (b :: bs) (b.toNat % 128 + 128 * n, rest) := by
  have hvalue : (put position word b).toNat + 2 ^ (7 * (position + 1)) * n =
      word.toNat + 2 ^ (7 * position) * (b.toNat % 128 + 128 * n) := by
    rw [hput, Nat.mul_succ, Nat.mul_add, Nat.pow_add, Nat.mul_assoc, Nat.add_assoc]
  have hend : position + 1 + (bs.length - rest.length) =
      position + ((b :: bs).length - rest.length) := by
    rw [List.length_cons]
    omega
  rw [joined, joined, hvalue, hend]

end Joined

/-- The word of the bytes before a position fits into the bits below it, which leaves the next
seven to the byte at that position. -/
theorem joinFrom_take (hp : position ≤ lastPosition) (hword : word.toNat < 2 ^ (7 * position)) :
    (joinFrom position word (bs.take (lastPosition + 1 - position))).getD
        (.error (unended (position + bs.length))) =
      (decodeFrom position bs).map (joined position word bs) := by
  induction bs generalizing position word with
  | nil =>
    have hle : position + ([] : Bytes).length ≤ lastPosition := hp
    rw [List.take_nil, joinFrom, decodeFrom, Option.getD_none, unended_of_le hle]
    rfl
  | cons b bs ih =>
    have htake : lastPosition + 1 - position = lastPosition - position + 1 := by omega
    rw [htake, List.take_succ_cons, joinFrom_cons, decodeFrom]
    by_cases hover : position = lastPosition ∧ 1 < b.toNat % 128
    · rw [if_pos hover, if_pos hover]
      rfl
    have hput := toNat_put hp hword hover
    rw [if_neg hover, if_neg hover]
    by_cases hlow : b.toNat < 128
    · rw [if_pos hlow, if_pos hlow]
      exact congrArg Except.ok (joined_last hput).symm
    rw [if_neg hlow, if_neg hlow]
    have hcount : position + (b :: bs).length = position + 1 + bs.length := by
      rw [List.length_cons]
      omega
    rcases Nat.lt_or_eq_of_le hp with hlt | rfl
    · have hdrop : lastPosition - position = lastPosition + 1 - (position + 1) := by omega
      rw [if_neg (Nat.ne_of_lt hlt), hdrop, hcount, ih hlt (toNat_put_lt hlt hword)]
      cases hrest : decodeFrom (position + 1) bs with
      | error e => rfl
      | ok p =>
        exact congrArg Except.ok (joined_more (Nat.le_of_lt (length_decodeFrom hrest)) hput)
    · have hlong : lastPosition < lastPosition + 1 + bs.length := by omega
      rw [if_pos rfl, Nat.sub_self, List.take_zero, joinFrom, Option.getD_none, hcount,
        unended_of_lt hlong]
      rfl

theorem decodeWord_eq (bs : Bytes) : decodeWord bs =
    (decode bs).map fun p => (.ofNat p.1, bs.length - p.2.length) := by
  have hjoined : joined 0 0 bs = fun p => (.ofNat p.1, bs.length - p.2.length) := by
    funext p
    simp [joined]
  have hzero : (0 : UInt64).toNat < 2 ^ (7 * 0) := Nat.one_pos
  rw [decodeWord, decode, ← hjoined, ← joinFrom_take (Nat.zero_le _) hzero, Nat.zero_add]
  rfl

end ShardedSearch.Wire.Varint
