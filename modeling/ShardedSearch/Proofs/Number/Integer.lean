import Mathlib.Algebra.Group.Nat.Defs
import Mathlib.Data.List.Basic
import ShardedSearch.Number.Integer

/-! # Integers in text

Text is an unsigned integer if it has digits only, one at least, and perhaps a plus sign in
front, and if the number that they write is a 64-bit word.
-/

namespace ShardedSearch.Number

variable {limit n m : Nat} {past : IntegerError} {cs : List Char} {s : String}

theorem le_ofDigitChars (cs : List Char) (n : Nat) : n ≤ Nat.ofDigitChars 10 cs n := by
  induction cs generalizing n with
  | nil => exact Nat.le_refl n
  | cons c cs ih =>
    rw [Nat.ofDigitChars_cons]
    exact Nat.le_trans (by omega) (ih _)

theorem appendDigits_eq_ok_iff (hn : n ≤ limit) : appendDigits limit past n cs = .ok m ↔
    (∀ c ∈ cs, c.isDigit = true) ∧ Nat.ofDigitChars 10 cs n = m ∧ m ≤ limit := by
  induction cs generalizing n with
  | nil =>
    rw [appendDigits, Except.ok.injEq]
    constructor
    · rintro rfl
      exact ⟨List.forall_mem_nil _, rfl, hn⟩
    · exact fun h => h.2.1
  | cons c cs ih =>
    rw [appendDigits, List.forall_mem_cons, Nat.ofDigitChars_cons]
    dsimp only
    split
    · next hc =>
      rw [and_iff_right hc]
      split
      · next hle => exact ih hle
      · next hlarge =>
        -- More digits do not make the value smaller.
        refine iff_of_false (by simp) ?_
        rintro ⟨-, rfl, hle⟩
        exact hlarge (Nat.le_trans (le_ofDigitChars cs _) hle)
    · next hc => exact iff_of_false (by simp) fun h => hc h.1.1

theorem digits_eq_ok_iff : digits limit past cs = .ok m ↔
    cs ≠ [] ∧ (∀ c ∈ cs, c.isDigit = true) ∧ Nat.ofDigitChars 10 cs 0 = m ∧ m ≤ limit := by
  cases cs with
  | nil => exact iff_of_false (by simp [digits]) fun h => h.1 rfl
  | cons c cs =>
    rw [and_iff_right (List.cons_ne_nil c cs)]
    exact appendDigits_eq_ok_iff (Nat.zero_le _)

/-- Whether characters write a number in digits, perhaps behind a plus sign. -/
def Writes (cs : List Char) (n : Nat) : Prop :=
  ∃ sign ds, (sign = [] ∨ sign = ['+']) ∧ cs = sign ++ ds ∧ ds ≠ [] ∧
    (∀ c ∈ ds, c.isDigit = true) ∧ Nat.ofDigitChars 10 ds 0 = n

theorem Writes.eq_or_isDigit {c : Char} (h : Writes cs n) (hc : c ∈ cs) :
    c = '+' ∨ c.isDigit = true := by
  obtain ⟨sign, ds, rfl | rfl, rfl, -, hds, -⟩ := h
  · exact .inr (hds c hc)
  · exact (List.mem_cons.mp hc).imp_right (hds c)

theorem writes_toDigits (n : Nat) : Writes (Nat.toDigits 10 n) n :=
  ⟨[], Nat.toDigits 10 n, .inl rfl, rfl, Nat.toDigits_ne_nil,
    fun _ hc => Nat.isDigit_of_mem_toDigits (by decide) (by decide) hc,
    Nat.ofDigitChars_ten_toDigits⟩

theorem writes_plus_iff : Writes ('+' :: cs) n ↔
    cs ≠ [] ∧ (∀ c ∈ cs, c.isDigit = true) ∧ Nat.ofDigitChars 10 cs 0 = n := by
  constructor
  · rintro ⟨sign, ds, rfl | rfl, heq, h⟩
    · obtain rfl : '+' :: cs = ds := heq
      cases h.2.1 '+' List.mem_cons_self
    · obtain rfl := (List.cons.inj heq).2
      exact h
  · exact fun h => ⟨['+'], cs, .inr rfl, rfl, h⟩

theorem writes_iff_of_ne (hcs : ∀ ds, cs ≠ '+' :: ds) : Writes cs n ↔
    cs ≠ [] ∧ (∀ c ∈ cs, c.isDigit = true) ∧ Nat.ofDigitChars 10 cs 0 = n := by
  constructor
  · rintro ⟨sign, ds, rfl | rfl, rfl, h⟩
    · exact h
    · exact absurd rfl (hcs ds)
  · exact fun h => ⟨[], cs, .inl rfl, rfl, h⟩

theorem unsigned_eq_ok_iff : unsigned s = .ok n ↔ Writes s.toList n ∧ n < 2 ^ 64 := by
  have hword : n < 2 ^ 64 ↔ n ≤ wordMax := Nat.lt_succ_iff
  rw [unsigned, hword]
  split
  · next hs =>
    rw [hs, writes_iff_of_ne fun _ => (List.cons_ne_nil _ _).symm]
    exact iff_of_false (by simp) fun h => h.1.1 rfl
  · next cs hs => rw [hs, digits_eq_ok_iff, writes_plus_iff, and_assoc, and_assoc]
  · next hne => rw [digits_eq_ok_iff, writes_iff_of_ne hne, and_assoc, and_assoc]

end ShardedSearch.Number
