/-! # Integers from text

Decimal integers with an optional sign, within limits. Characters are read from the
left, and the first one that is no digit, or that takes the value past its limit,
decides the error.
-/

namespace ShardedSearch.Number

inductive IntegerError where
  | empty
  | invalidDigit
  | tooLarge
  | tooSmall
deriving DecidableEq

def IntegerError.message : IntegerError → String
  | .empty => "cannot parse integer from empty string"
  | .invalidDigit => "invalid digit found in string"
  | .tooLarge => "number too large to fit in target type"
  | .tooSmall => "number too small to fit in target type"

def wordMax : Nat := UInt64.size - 1

def signedMax : Nat := UInt64.size / 2 - 1

def digitValue (c : Char) : Nat := c.toNat - '0'.toNat

def appendDigits (limit : Nat) (past : IntegerError) : Nat → List Char → Except IntegerError Nat
  | n, [] => .ok n
  | n, c :: cs =>
    if c.isDigit then
      let m := 10 * n + digitValue c
      if m ≤ limit then appendDigits limit past m cs else .error past
    else .error .invalidDigit

/-- The value of one or more digits. -/
def digits (limit : Nat) (past : IntegerError) : List Char → Except IntegerError Nat
  | [] => .error .invalidDigit
  | cs => appendDigits limit past 0 cs

/-- An unsigned 64-bit integer; a plus sign may stand in front. -/
def unsigned (s : String) : Except IntegerError Nat :=
  match s.toList with
  | [] => .error .empty
  | '+' :: cs => digits wordMax .tooLarge cs
  | cs => digits wordMax .tooLarge cs

def signed (s : String) : Except IntegerError Int :=
  match s.toList with
  | [] => .error .empty
  | '+' :: cs => (digits signedMax .tooLarge cs).map Int.ofNat
  | '-' :: cs => (digits (signedMax + 1) .tooSmall cs).map fun n => -Int.ofNat n
  | cs => (digits signedMax .tooLarge cs).map Int.ofNat

theorem appendDigits_le {limit n m : Nat} {past : IntegerError} {cs : List Char}
    (hn : n ≤ limit) (h : appendDigits limit past n cs = .ok m) : m ≤ limit := by
  induction cs generalizing n with
  | nil => rw [appendDigits, Except.ok.injEq] at h; omega
  | cons c cs ih =>
    simp only [appendDigits] at h
    split at h
    · split at h
      · next hm => exact ih hm h
      · exact absurd h (by simp)
    · exact absurd h (by simp)

end ShardedSearch.Number
