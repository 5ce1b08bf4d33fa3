import ShardedSearch.Wire.Error

/-! # Varints

Natural numbers below `2 ^ 64` in groups of seven bits, lowest first; every byte but
the last has its high bit set. The tenth byte holds a single bit.
-/

namespace ShardedSearch.Wire

abbrev Bytes := List UInt8

namespace Varint

def lastPosition : Nat := 9

def encode (n : Nat) : Bytes :=
  if n < 128 then [n.toUInt8] else (n % 128 + 128).toUInt8 :: encode (n / 128)
termination_by n
decreasing_by omega

/-- Reads a number from the byte at the given position of a varint on. -/
def decodeFrom (position : Nat) : Bytes → Except WireError (Nat × Bytes)
  | [] => .error .incompleteVarint
  | b :: bs =>
    let payload := b.toNat % 128
    if position = lastPosition ∧ 1 < payload then .error .varintOverflow
    else if b.toNat < 128 then .ok (payload, bs)
    else if position = lastPosition then .error .varintOverflow
    else match decodeFrom (position + 1) bs with
      | .ok (n, rest) => .ok (payload + 128 * n, rest)
      | .error e => .error e

def decode (bs : Bytes) : Except WireError (Nat × Bytes) := decodeFrom 0 bs

def bitLength (n : Nat) : Nat := if n = 0 then 0 else n.log2 + 1

/-- Number of bytes of the encoding: one for each group of seven bits, at least one. -/
def size (n : Nat) : Nat := (max (bitLength n) 1 + 6) / 7

theorem length_decodeFrom {position n : Nat} {bs rest : Bytes}
    (h : decodeFrom position bs = .ok (n, rest)) : rest.length < bs.length := by
  induction bs generalizing position n rest with
  | nil => simp [decodeFrom] at h
  | cons b bs ih =>
    simp only [decodeFrom] at h
    split at h
    · simp at h
    · split at h
      · simp only [Except.ok.injEq, Prod.mk.injEq] at h
        simp [← h.2]
      · split at h
        · simp at h
        · split at h
          · next hd =>
            simp only [Except.ok.injEq, Prod.mk.injEq] at h
            have := ih hd
            simp only [List.length_cons, ← h.2]
            omega
          · simp at h

end Varint

end ShardedSearch.Wire
