import Mathlib.Data.Nat.Digits.Lemmas
import ShardedSearch.Proofs.Wire.Word

/-! # Where varints end

Bytes are told apart by the first of them without its high bit. If it is among the first ten,
and no more than a single bit if it is the tenth, a varint ends there; otherwise the bytes are
too many or too few. Numbers and words are read alike, and no other bytes tell a number in as
few as its encoding.
-/

namespace ShardedSearch.Wire.Varint

variable {position k n : Nat} {b : UInt8} {bs rest : Bytes}

def firstLow? (bs : Bytes) : Option Nat := bs.findIdx? fun b => b.toNat < 128

def payloads (bs : Bytes) : List Nat := bs.map fun b => b.toNat % 128

/-- The sum of the groups of seven bits, each at its place. -/
def total (bs : Bytes) : Nat := ((payloads bs).mapIdx fun i r => r * 2 ^ (7 * i)).sum

/-- Whether a varint, read from a position on, ends with the byte of the given index. -/
structure EndsFrom (position : Nat) (bs : Bytes) (k : Nat) : Prop where
  first : firstLow? bs = some k
  le_last : position + k ≤ lastPosition
  single_bit : position + k = lastPosition → ∀ r ∈ (payloads bs)[k]?, r ≤ 1

abbrev EndsAt (bs : Bytes) (k : Nat) : Prop := EndsFrom 0 bs k

/-- What bytes tell by the first of them without its high bit: a number and the count of the
bytes it takes, or that they are too many or too few. -/
inductive Tells (bs : Bytes) : Except WireError (Nat × Nat) → Prop
  | ends {k : Nat} (h : EndsAt bs k) : Tells bs (.ok (total (bs.take (k + 1)), k + 1))
  | long (hlen : 10 ≤ bs.length) (h : ∀ k, ¬ EndsAt bs k) : Tells bs (.error .varintOverflow)
  | short (hlen : bs.length < 10) (h : ∀ b ∈ bs, 128 ≤ b.toNat) :
    Tells bs (.error .incompleteVarint)

theorem firstLow?_cons : firstLow? (b :: bs) =
    if b.toNat < 128 then some 0 else (firstLow? bs).map (· + 1) := by
  rw [firstLow?, List.findIdx?_cons]
  simp only [decide_eq_true_eq]
  rfl

theorem firstLow?_eq_none_iff : firstLow? bs = none ↔ ∀ b ∈ bs, 128 ≤ b.toNat := by
  rw [firstLow?, List.findIdx?_eq_none_iff]
  simp only [decide_eq_false_iff_not, Nat.not_lt]

theorem total_eq_ofDigits (bs : Bytes) : total bs = Nat.ofDigits 128 (payloads bs) := by
  have hbase : ∀ i, 2 ^ (7 * i) = 128 ^ i := Nat.pow_mul 2 7
  simp only [total, hbase, Nat.ofDigits_eq_sum_mapIdx]

theorem total_cons : total (b :: bs) = b.toNat % 128 + 128 * total bs := by
  rw [total_eq_ofDigits, total_eq_ofDigits, payloads, List.map_cons, Nat.ofDigits_cons, payloads]

/-! ### Decoding -/

theorem endsFrom_cons_of_low (hb : b.toNat < 128) : EndsFrom position (b :: bs) k ↔
    k = 0 ∧ position ≤ lastPosition ∧ ¬ (position = lastPosition ∧ 1 < b.toNat % 128) := by
  constructor
  · rintro ⟨hfirst, hle, hbit⟩
    rw [firstLow?_cons, if_pos hb] at hfirst
    obtain rfl := Option.some.inj hfirst
    exact ⟨rfl, hle, fun ⟨hlast, hover⟩ => Nat.not_le.mpr hover (hbit hlast _ rfl)⟩
  · rintro ⟨rfl, hle, hbit⟩
    refine ⟨by rw [firstLow?_cons, if_pos hb], hle, fun hlast r hr => ?_⟩
    obtain rfl := Option.some.inj hr
    exact Nat.not_lt.mp fun hover => hbit ⟨hlast, hover⟩

theorem endsFrom_cons_of_high (hb : ¬ b.toNat < 128) :
    EndsFrom position (b :: bs) k ↔ ∃ j, k = j + 1 ∧ EndsFrom (position + 1) bs j := by
  constructor
  · rintro ⟨hfirst, hle, hbit⟩
    rw [firstLow?_cons, if_neg hb] at hfirst
    obtain ⟨j, hj, rfl⟩ := Option.map_eq_some_iff.mp hfirst
    refine ⟨j, rfl, hj, by omega, fun hlast => hbit (by omega)⟩
  · rintro ⟨j, rfl, hfirst, hle, hbit⟩
    refine ⟨?_, by omega, fun hlast => hbit (by omega)⟩
    rw [firstLow?_cons, if_neg hb, hfirst]
    rfl

theorem EndsFrom.decodeFrom_eq (h : EndsFrom position bs k) :
    decodeFrom position bs = .ok (total (bs.take (k + 1)), bs.drop (k + 1)) := by
  induction bs generalizing position k with
  | nil => cases h.first
  | cons b bs ih =>
    by_cases hb : b.toNat < 128
    · obtain ⟨rfl, -, hbit⟩ := (endsFrom_cons_of_low hb).mp h
      rw [decodeFrom, if_neg hbit, if_pos hb, List.take_succ_cons, total_cons]
      rfl
    · obtain ⟨j, rfl, hj⟩ := (endsFrom_cons_of_high hb).mp h
      have hne : position ≠ lastPosition := by
        have := hj.le_last
        omega
      rw [decodeFrom, if_neg fun h => hne h.1, if_neg hb, if_neg hne, ih hj, List.take_succ_cons,
        total_cons, List.drop_succ_cons]

theorem decodeFrom_of_not_endsFrom (hp : position ≤ lastPosition)
    (h : ∀ k, ¬ EndsFrom position bs k) :
    decodeFrom position bs = .error (unended (position + bs.length)) := by
  induction bs generalizing position with
  | nil => exact congrArg Except.error (unended_of_le hp).symm
  | cons b bs ih =>
    have hcount : position + (b :: bs).length = position + 1 + bs.length := by
      rw [List.length_cons]
      omega
    by_cases hover : position = lastPosition ∧ 1 < b.toNat % 128
    · rw [decodeFrom, if_pos hover, unended_of_lt (by omega)]
    · have hb : ¬ b.toNat < 128 := fun hb =>
        h 0 ((endsFrom_cons_of_low hb).mpr ⟨rfl, hp, hover⟩)
      rw [decodeFrom, if_neg hover, if_neg hb]
      by_cases hlast : position = lastPosition
      · rw [if_pos hlast, unended_of_lt (by omega)]
      · have hnext : ∀ k, ¬ EndsFrom (position + 1) bs k := fun k hk =>
          h (k + 1) ((endsFrom_cons_of_high hb).mpr ⟨k, rfl, hk⟩)
        rw [if_neg hlast, ih (by omega) hnext, hcount]

theorem total_lt (h : EndsAt bs k) : total (bs.take (k + 1)) < 2 ^ 64 := by
  obtain ⟨header, hs, -⟩ := decode_eq_ok_iff.mp h.decodeFrom_eq
  exact hs.lt

theorem decodeWord_of_endsAt (h : EndsAt bs k) :
    decodeWord bs = .ok (.ofNat (total (bs.take (k + 1))), k + 1) := by
  have hlt : k < bs.length := (List.findIdx?_eq_some_iff_getElem.mp h.first).1
  have hused : bs.length - (bs.drop (k + 1)).length = k + 1 := by
    rw [List.length_drop]
    omega
  rw [decodeWord_eq, decode, h.decodeFrom_eq]
  exact congrArg (fun used => Except.ok (_, used)) hused

theorem decodeWord_of_not_endsAt (h : ∀ k, ¬ EndsAt bs k) :
    decodeWord bs = .error (unended bs.length) := by
  rw [decodeWord_eq, decode, decodeFrom_of_not_endsFrom (Nat.zero_le _) h, Nat.zero_add]
  rfl

/-- Fewer than ten bytes in which no varint ends are all high. -/
theorem high_of_not_endsAt (hlen : bs.length < 10) (h : ∀ k, ¬ EndsAt bs k) :
    ∀ b ∈ bs, 128 ≤ b.toNat := by
  rw [← firstLow?_eq_none_iff]
  cases hfirst : firstLow? bs with
  | none => rfl
  | some k =>
    have hlt : k < bs.length := (List.findIdx?_eq_some_iff_getElem.mp hfirst).1
    have hlast : k < lastPosition := Nat.lt_of_lt_of_le hlt (Nat.le_of_lt_succ hlen)
    exact absurd ⟨hfirst, by omega, by omega⟩ (h k)

theorem not_endsAt_of_high (h : ∀ b ∈ bs, 128 ≤ b.toNat) (k : Nat) : ¬ EndsAt bs k := fun hk => by
  have hfirst := hk.first
  rw [firstLow?_eq_none_iff.mpr h] at hfirst
  cases hfirst

theorem tells_decodeWord (bs : Bytes) :
    Tells bs ((decodeWord bs).map fun p => (p.1.toNat, p.2)) := by
  by_cases h : ∃ k, EndsAt bs k
  · obtain ⟨k, hk⟩ := h
    have hvalue : (UInt64.ofNat (total (bs.take (k + 1)))).toNat = total (bs.take (k + 1)) :=
      UInt64.toNat_ofNat_of_lt' (total_lt hk)
    rw [decodeWord_of_endsAt hk, Except.map, hvalue]
    exact .ends hk
  · have hno : ∀ k, ¬ EndsAt bs k := fun k hk => h ⟨k, hk⟩
    rw [decodeWord_of_not_endsAt hno, Except.map]
    rcases Nat.lt_or_ge bs.length 10 with hlen | hlen
    · rw [unended_of_le (Nat.le_of_lt_succ hlen)]
      exact .short hlen (high_of_not_endsAt hlen hno)
    · rw [unended_of_lt hlen]
      exact .long hlen hno

theorem Tells.eq {r : Except WireError (Nat × Nat)} (h : Tells bs r) :
    (decodeWord bs).map (fun p => (p.1.toNat, p.2)) = r := by
  cases h with
  | ends h =>
    rw [decodeWord_of_endsAt h, Except.map, UInt64.toNat_ofNat_of_lt' (total_lt h)]
  | long hlen h =>
    rw [decodeWord_of_not_endsAt h, unended_of_lt hlen, Except.map]
  | short hlen h =>
    rw [decodeWord_of_not_endsAt (not_endsAt_of_high h), unended_of_le (Nat.le_of_lt_succ hlen),
      Except.map]

example : decodeWord (.replicate 9 0x80) = .error .incompleteVarint ∧
    decodeWord (.replicate 10 0x80) = .error .varintOverflow := ⟨rfl, rfl⟩

theorem decode_eq_map_decodeWord (bs : Bytes) :
    decode bs = (decodeWord bs).map fun p => (p.1.toNat, bs.drop p.2) := by
  rw [decodeWord_eq]
  cases hdecode : decode bs with
  | error e => rfl
  | ok p =>
    obtain ⟨n, rest⟩ := p
    obtain ⟨header, hs, rfl⟩ := decode_eq_ok_iff.mp hdecode
    have hrest : (header ++ rest).drop ((header ++ rest).length - rest.length) = rest := by
      rw [List.length_append, Nat.add_sub_cancel, List.drop_left]
    have hvalue : (UInt64.ofNat n).toNat = n := UInt64.toNat_ofNat_of_lt' hs.lt
    simp only [Except.map, hrest, hvalue]

/-! ### The fewest bytes -/

def BeginsWith (n : Nat) (bs : Bytes) : Prop := ∃ rest, decode bs = .ok (n, rest)

theorem BeginsWith.length_encode_le (h : BeginsWith n bs) : (encode n).length ≤ bs.length := by
  obtain ⟨rest, hrest⟩ := h
  obtain ⟨header, hs, rfl⟩ := decode_eq_ok_iff.mp hrest
  rw [List.length_append]
  exact Nat.le_add_right_of_le hs.groups.length_encode_le

theorem Spells.beginsWith (h : Spells n bs) : BeginsWith n bs :=
  ⟨[], by simpa using h.decode []⟩

theorem beginsWith_shortest_iff (h : n < 2 ^ 64) :
    (BeginsWith n bs ∧ ∀ other, BeginsWith n other → bs.length ≤ other.length) ↔
      bs = encode n := by
  constructor
  · rintro ⟨⟨rest, hrest⟩, hshortest⟩
    obtain ⟨header, hs, rfl⟩ := decode_eq_ok_iff.mp hrest
    have hle : ∀ other, Spells n other → header.length + rest.length ≤ other.length :=
      fun other ho => List.length_append ▸ hshortest other ho.beginsWith
    obtain rfl := hs.isShortest_iff.mp fun other ho => Nat.le_of_add_right_le (hle other ho)
    have hnil : rest.length = 0 := by
      have := hle _ hs
      omega
    rw [List.eq_nil_of_length_eq_zero hnil, List.append_nil]
  · rintro rfl
    exact ⟨(spells_encode h).beginsWith, fun _ => BeginsWith.length_encode_le⟩

/-- Bytes tell what their first byte without its high bit tells, a number below `2 ^ 64` if
any, and no others that tell a word are as few as its encoding. -/
theorem decodes_by_first_low (bs : Bytes) (word : UInt64) :
    (∀ r, (decodeWord bs).map (fun p => (p.1.toNat, p.2)) = r ↔ Tells bs r) ∧
    (decode bs = (decodeWord bs).map fun p => (p.1.toNat, bs.drop p.2)) ∧
    (∀ k, EndsAt bs k → total (bs.take (k + 1)) < 2 ^ 64) ∧
    encodeWord word = encode word.toNat ∧
    ((BeginsWith word.toNat bs ∧
        ∀ other, BeginsWith word.toNat other → bs.length ≤ other.length) ↔
      bs = encode word.toNat) :=
  ⟨fun _ => ⟨fun h => h ▸ tells_decodeWord bs, Tells.eq⟩, decode_eq_map_decodeWord bs,
    fun _ => total_lt, encodeWord_eq word, beginsWith_shortest_iff word.toNat_lt⟩

theorem decodes_by_first_low_greatest :
    EndsAt (.replicate 9 255 ++ [1]) 9 ∧
      total (.replicate 9 255 ++ [1]) < 2 ^ 64 ∧
      decode (.replicate 9 255 ++ [1]) = .ok (2 ^ 64 - 1, []) := by
  have hends : EndsAt (.replicate 9 255 ++ [1]) 9 := ⟨by decide, by decide, by decide⟩
  obtain ⟨-, -, hlt, -, -⟩ := decodes_by_first_low (.replicate 9 255 ++ [1]) 0
  exact ⟨hends, hlt 9 hends, hends.decodeFrom_eq⟩

end ShardedSearch.Wire.Varint
