/-! # Numbers in scientific form

Decimal digits times a power of ten. What matters here is their size alone: the main
statements say that `overflows` compares with the least number for which the nearest
double is infinite, though it never forms a power much larger than that number.
-/

namespace ShardedSearch.Number

structure Scientific where
  digits : Nat
  exponent : Int

/-- Half way between the greatest double and the next power of two. -/
def overflowBound : Nat := 1 <<< 1024 - 1 <<< 970

def overflowExponent : Nat := 309

def tenTo (n : Nat) : Nat := Nat.pow 10 n

theorem overflowBound_lt : overflowBound < tenTo overflowExponent := by decide +kernel

theorem tenTo_le {m n : Nat} (h : m ≤ n) : tenTo m ≤ tenTo n :=
  Nat.pow_le_pow_right (by decide) h

namespace Scientific

/-- Whether the nearest double is infinite. -/
def overflows (x : Scientific) : Bool :=
  match x.exponent with
  | .ofNat n => if n < overflowExponent then overflowBound ≤ x.digits * tenTo n else x.digits ≠ 0
  | .negSucc n => n < x.digits.log2 && overflowBound * tenTo (n + 1) ≤ x.digits

theorem overflows_ofNat_iff {d n : Nat} :
    overflows ⟨d, .ofNat n⟩ = true ↔ overflowBound ≤ d * tenTo n := by
  simp only [overflows]
  split
  · simp
  · next h =>
    simp only [ne_eq, decide_eq_true_eq]
    constructor
    · intro hd
      have hp : tenTo overflowExponent ≤ tenTo n := tenTo_le (by omega)
      have hm : tenTo n ≤ d * tenTo n := Nat.le_mul_of_pos_left _ (by omega)
      exact Nat.le_of_lt (Nat.lt_of_lt_of_le overflowBound_lt (Nat.le_trans hp hm))
    · rintro h rfl
      rw [Nat.zero_mul] at h
      exact absurd h (by decide +kernel)

theorem overflows_negSucc_iff {d n : Nat} :
    overflows ⟨d, .negSucc n⟩ = true ↔ overflowBound * tenTo (n + 1) ≤ d := by
  simp only [overflows, Bool.and_eq_true, decide_eq_true_eq, and_iff_right_iff_imp]
  intro h
  refine Decidable.byContradiction fun hn => absurd h (Nat.not_le.mpr ?_)
  calc d < 2 ^ (d.log2 + 1) := Nat.lt_log2_self
    _ ≤ 2 ^ (n + 1) := Nat.pow_le_pow_right (by omega) (by omega)
    _ ≤ tenTo (n + 1) := Nat.pow_le_pow_left (by omega) _
    _ ≤ overflowBound * tenTo (n + 1) := Nat.le_mul_of_pos_left _ (by decide +kernel)

end Scientific

end ShardedSearch.Number
