import Mathlib.Algebra.Group.Nat.Defs
import ShardedSearch.Wire.Varint

/-! # The varints of a number

A varint tells a number by its groups of seven bits, and groups of zeros may end it. Decoding
takes just these varints, whatever follows them. Encoding gives the shortest of them, and no
other is as short.
-/

namespace ShardedSearch.Wire.Varint

variable {position n m : Nat} {b : UInt8} {bs rest : Bytes}

theorem toNat_toUInt8 (h : n < 256) : n.toUInt8.toNat = n := by
  simp [Nat.mod_eq_of_lt h]

/-- Bytes with the groups of seven bits of a number, the lowest first. -/
inductive Groups : Nat → Bytes → Prop where
  | last {b : UInt8} (h : b.toNat < 128) : Groups b.toNat [b]
  | more {b : UInt8} {n : Nat} {bs : Bytes} (h : 128 ≤ b.toNat) (hs : Groups n bs) :
      Groups (b.toNat % 128 + 128 * n) (b :: bs)

/-- Whether bytes are the end of a varint, from a position on, that tells the number. The
tenth byte holds the last of 64 bits. -/
structure SpellsFrom (position n : Nat) (bs : Bytes) : Prop where
  groups : Groups n bs
  length_le : position + bs.length ≤ lastPosition + 1
  lt : n < 2 ^ (64 - 7 * position)

abbrev Spells (n : Nat) (bs : Bytes) : Prop := SpellsFrom 0 n bs

/-- Each byte takes seven bits off what the bytes after it can hold. -/
theorem add_mul_lt_two_pow_iff {r : Nat} (hp : position < lastPosition) (hr : r < 128) :
    r + 128 * n < 2 ^ (64 - 7 * position) ↔ n < 2 ^ (64 - 7 * (position + 1)) := by
  have he : 64 - 7 * position = 64 - 7 * (position + 1) + 7 := by
    rw [lastPosition] at hp
    omega
  rw [he, Nat.pow_add]
  omega

theorem payload_lt_two_pow {r : Nat} (hp : position ≤ lastPosition) (hr : r < 128)
    (hbit : ¬ (position = lastPosition ∧ 1 < r)) : r < 2 ^ (64 - 7 * position) := by
  rcases Nat.lt_or_eq_of_le hp with hlt | rfl
  · exact (add_mul_lt_two_pow_iff (n := 0) hlt hr).mpr (Nat.two_pow_pos _)
  · exact Nat.lt_succ_of_le (Nat.not_lt.mp fun h => hbit ⟨rfl, h⟩)

theorem Groups.length_pos (h : Groups n bs) : 0 < bs.length := by
  cases h <;> exact Nat.succ_pos _

/-! ### Decoding -/

theorem SpellsFrom.decodeFrom (h : SpellsFrom position n bs) (rest : Bytes) :
    decodeFrom position (bs ++ rest) = .ok (n, rest) := by
  obtain ⟨hg, hlen, hn⟩ := h
  induction hg generalizing position with
  | @last b hb =>
    have hlast : ¬ (position = lastPosition ∧ 1 < b.toNat) := by
      rintro ⟨rfl, hbit⟩
      have hbit' : b.toNat < 2 := hn
      omega
    rw [List.singleton_append, Varint.decodeFrom, Nat.mod_eq_of_lt hb, if_neg hlast, if_pos hb]
  | @more b n bs hb hs ih =>
    have hlt : position < lastPosition := by
      have := hs.length_pos
      rw [List.length_cons] at hlen
      omega
    have hne := Nat.ne_of_lt hlt
    have hn' := (add_mul_lt_two_pow_iff hlt (Nat.mod_lt _ (by decide))).mp hn
    rw [List.length_cons] at hlen
    rw [List.cons_append, Varint.decodeFrom, if_neg fun h => hne h.1, if_neg (Nat.not_lt.mpr hb),
      if_neg hne, ih (by omega) hn']

theorem exists_of_decodeFrom (hp : position ≤ lastPosition)
    (h : decodeFrom position bs = .ok (n, rest)) :
    ∃ header, SpellsFrom position n header ∧ bs = header ++ rest := by
  induction bs generalizing position n with
  | nil => cases h
  | cons b bs ih =>
    rw [Varint.decodeFrom] at h
    split at h
    · cases h
    · next hbit =>
      split at h
      · next hb =>
        rw [Nat.mod_eq_of_lt hb] at h hbit
        obtain ⟨rfl, rfl⟩ := Prod.mk.inj (Except.ok.inj h)
        exact ⟨[b], ⟨.last hb, Nat.succ_le_succ hp, payload_lt_two_pow hp hb hbit⟩, rfl⟩
      · next hb =>
        split at h
        · cases h
        · next hne =>
          have hlt : position < lastPosition := Nat.lt_of_le_of_ne hp hne
          split at h
          · next m rest' hm =>
            obtain ⟨rfl, rfl⟩ := Prod.mk.inj (Except.ok.inj h)
            obtain ⟨header, ⟨hg, hlen, hm'⟩, rfl⟩ := ih hlt hm
            refine ⟨b :: header, ⟨.more (Nat.not_lt.mp hb) hg, ?_, ?_⟩, rfl⟩
            · rw [List.length_cons]
              omega
            · exact (add_mul_lt_two_pow_iff hlt (Nat.mod_lt _ (by decide))).mpr hm'
          · cases h

/-- Decoding takes a varint off the front, and only that. -/
theorem decode_eq_ok_iff :
    decode bs = .ok (n, rest) ↔ ∃ header, Spells n header ∧ bs = header ++ rest := by
  constructor
  · exact exists_of_decodeFrom (Nat.zero_le _)
  · rintro ⟨header, hs, rfl⟩
    exact hs.decodeFrom rest

theorem Spells.decode (h : Spells n bs) (rest : Bytes) : decode (bs ++ rest) = .ok (n, rest) :=
  h.decodeFrom rest

/-! ### Encoding -/

theorem encode_of_lt (h : n < 128) : encode n = [n.toUInt8] := by
  rw [encode, if_pos h]

theorem encode_add_mul {r : Nat} (hr : r < 128) (hn : 0 < n) :
    encode (r + 128 * n) = (r + 128).toUInt8 :: encode n := by
  have hmod : (r + 128 * n) % 128 = r := by omega
  have hdiv : (r + 128 * n) / 128 = n := by omega
  rw [encode, if_neg (by omega), hmod, hdiv]

theorem groups_encode (n : Nat) : Groups n (encode n) := by
  fun_induction encode n with
  | case1 n h =>
    have hb : n.toUInt8.toNat = n := toNat_toUInt8 (by omega)
    have := Groups.last (b := n.toUInt8) (by omega)
    rwa [hb] at this
  | case2 n h ih =>
    have hb : (n % 128 + 128).toUInt8.toNat = n % 128 + 128 := toNat_toUInt8 (by omega)
    have := Groups.more (b := (n % 128 + 128).toUInt8) (by omega) ih
    have hn : (n % 128 + 128) % 128 + 128 * (n / 128) = n := by omega
    rwa [hb, hn] at this

theorem one_le_length_encode (n : Nat) : 1 ≤ (encode n).length := (groups_encode n).length_pos

theorem length_encode_mono (h : m ≤ n) : (encode m).length ≤ (encode n).length := by
  fun_induction encode n generalizing m with
  | case1 n hn =>
    rw [encode_of_lt (Nat.lt_of_le_of_lt h hn)]
    exact Nat.le_refl _
  | case2 n hn ih =>
    rw [encode]
    split
    · exact Nat.succ_le_succ (Nat.zero_le _)
    · exact Nat.succ_le_succ (ih (Nat.div_le_div_right h))

theorem spells_encode (h : n < 2 ^ 64) : Spells n (encode n) := by
  have hlen : (encode n).length ≤ (encode (2 ^ 64 - 1)).length :=
    length_encode_mono (Nat.le_pred_of_lt h)
  have hmax : (encode (2 ^ 64 - 1)).length = lastPosition + 1 := by simp [encode, lastPosition]
  rw [hmax] at hlen
  exact ⟨groups_encode n, by rwa [Nat.zero_add], h⟩

theorem decode_encode (h : n < 2 ^ 64) (rest : Bytes) : decode (encode n ++ rest) = .ok (n, rest) :=
  (spells_encode h).decode rest

theorem bitLength_div (h : 128 ≤ n) : bitLength n = bitLength (n / 128) + 7 := by
  have hn : n ≠ 0 := by omega
  have hd : n / 128 ≠ 0 := by omega
  obtain ⟨hle, hlt⟩ := (Nat.log2_eq_iff hd).mp rfl
  have hlog : n.log2 = (n / 128).log2 + 7 := by
    refine (Nat.log2_eq_iff hn).mpr ⟨?_, ?_⟩
    · rw [Nat.pow_add]
      omega
    · rw [Nat.add_right_comm, Nat.pow_add]
      omega
  rw [bitLength, bitLength, if_neg hn, if_neg hd, hlog]

theorem size_eq (n : Nat) : size n = (encode n).length := by
  fun_induction encode n with
  | case1 n h =>
    have hbits : bitLength n ≤ 7 := by
      rw [bitLength]
      split
      · exact Nat.zero_le _
      · next hn => exact (Nat.log2_lt hn).mpr h
    rw [size, List.length_singleton]
    omega
  | case2 n h ih =>
    have hbits := bitLength_div (Nat.not_lt.mp h)
    have hpos : 1 ≤ bitLength (n / 128) := by
      rw [bitLength, if_neg (by omega)]
      exact Nat.le_add_left ..
    rw [List.length_cons, ← ih, size, size, hbits]
    omega

/-! ### The shortest varint -/

/-- Whether no varint of the number has fewer bytes. -/
def IsShortest (n : Nat) (bs : Bytes) : Prop := ∀ other, Spells n other → bs.length ≤ other.length

theorem Groups.length_encode_le (h : Groups n bs) : (encode n).length ≤ bs.length := by
  induction h with
  | last hb =>
    rw [encode_of_lt hb]
    exact Nat.le_refl _
  | @more b n bs hb hs ih =>
    rcases Nat.eq_zero_or_pos n with rfl | hn
    · rw [encode_of_lt (by omega)]
      exact Nat.succ_le_succ (Nat.zero_le _)
    · rw [encode_add_mul (Nat.mod_lt _ (by decide)) hn]
      exact Nat.succ_le_succ ih

theorem isShortest_encode (n : Nat) : IsShortest n (encode n) := fun _ ho =>
  ho.groups.length_encode_le

theorem Groups.eq_encode (h : Groups n bs) (hlen : bs.length ≤ (encode n).length) :
    bs = encode n := by
  induction h with
  | @last b hb =>
    rw [encode_of_lt hb]
    simp
  | @more b n bs hb hs ih =>
    rcases Nat.eq_zero_or_pos n with rfl | hn
    · have := hs.length_pos
      rw [encode_of_lt (by omega), List.length_cons, List.length_singleton] at hlen
      omega
    · have hlt := b.toNat_lt
      have hbyte : (b.toNat % 128 + 128).toUInt8 = b := by
        have he : b.toNat % 128 + 128 = b.toNat := by omega
        rw [he]
        simp
      rw [encode_add_mul (Nat.mod_lt _ (by decide)) hn, List.length_cons, List.length_cons] at hlen
      rw [encode_add_mul (Nat.mod_lt _ (by decide)) hn, hbyte, ← ih (Nat.le_of_succ_le_succ hlen)]

theorem Spells.isShortest_iff (h : Spells n bs) : IsShortest n bs ↔ bs = encode n := by
  constructor
  · intro hs
    exact h.groups.eq_encode (hs _ (spells_encode h.lt))
  · rintro rfl
    exact isShortest_encode n

end ShardedSearch.Wire.Varint
