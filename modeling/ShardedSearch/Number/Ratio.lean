/-! # Ratios

Quotients of counts shown with at most two decimals. Both counts and their quotient
are binary fractions of 53 significant bits; every rounding goes to the nearest
value, a tie to the even one.
-/

namespace ShardedSearch.Number

/-- The integer nearest to a fraction, the even one of two. -/
def roundEven (num den : Nat) : Nat :=
  let q := num / den
  let r := num % den
  if 2 * r < den ∨ (2 * r = den ∧ q % 2 = 0) then q else q + 1

structure Fraction where
  num : Nat
  den : Nat

/-- The nearest fraction with the given number of significant bits. -/
def Fraction.toBits (bits : Nat) (f : Fraction) : Fraction :=
  if f.num = 0 then ⟨0, 1⟩
  else
    let up := 1 <<< (bits + f.den.log2)
    let down := 1 <<< f.num.log2
    let down := if 1 <<< bits ≤ (f.num * up) / (f.den * down) then 2 * down else down
    ⟨roundEven (f.num * up) (f.den * down) * down, up⟩

def doubleBits : Nat := 53

/-- The double nearest to the quotient of two counts, each first made a double. -/
def quotient (num den : Nat) : Fraction :=
  let a := Fraction.toBits doubleBits ⟨num, 1⟩
  let b := Fraction.toBits doubleBits ⟨den, 1⟩
  Fraction.toBits doubleBits ⟨a.num * b.den, a.den * b.num⟩

def hundredthsText (h : Nat) : String :=
  let whole := toString (h / 100)
  let tenth := toString (h % 100 / 10)
  let last := toString (h % 10)
  if h % 100 = 0 then whole
  else if h % 10 = 0 then whole ++ "." ++ tenth
  else whole ++ "." ++ tenth ++ last

/-- A quotient with at most two decimals; a zero denominator gives zero. -/
def ratioText (num den : Nat) : String :=
  if den = 0 then "0"
  else
    let q := quotient num den
    hundredthsText (roundEven (100 * q.num) q.den)

theorem roundEven_near {num den : Nat} (h : 0 < den) :
    2 * num ≤ 2 * (roundEven num den * den) + den ∧
      2 * (roundEven num den * den) ≤ 2 * num + den := by
  have hd := Nat.div_add_mod num den
  have hm := Nat.mod_lt num h
  have hc : den * (num / den) = num / den * den := Nat.mul_comm ..
  simp only [roundEven]
  split
  · omega
  · next hn =>
    rw [Nat.add_mul]
    omega

end ShardedSearch.Number
