/-! # Key orders

Keys of sorted collections: a strict order in which two keys that do not compare
are equal. Text compares by code point.
-/

namespace ShardedSearch

/-- A strict order in which any two different keys compare. -/
class KeyOrder (κ : Type) [LT κ] : Prop where
  irrefl : ∀ a : κ, ¬ a < a
  trans : ∀ {a b c : κ}, a < b → b < c → a < c
  connected : ∀ {a b : κ}, ¬ a < b → ¬ b < a → a = b

instance : KeyOrder String where
  irrefl := String.lt_irrefl
  trans := String.lt_trans
  connected h h' := String.le_antisymm (String.not_lt.mp h') (String.not_lt.mp h)

instance : KeyOrder Nat where
  irrefl := Nat.lt_irrefl
  trans := Nat.lt_trans
  connected h h' := Nat.le_antisymm (Nat.not_lt.mp h') (Nat.not_lt.mp h)

namespace KeyOrder

variable {κ : Type} [LT κ] [KeyOrder κ] {a b : κ}

theorem ne_of_lt (h : a < b) : a ≠ b := fun e => irrefl b (e ▸ h)

theorem not_lt_of_lt (h : a < b) : ¬ b < a := fun h' => irrefl a (trans h h')

theorem lt_of_not_lt (h : ¬ a < b) (hne : a ≠ b) : b < a :=
  Classical.byContradiction fun h' => hne (connected h h')

theorem not_lt_and_not_lt_iff : ¬ a < b ∧ ¬ b < a ↔ a = b :=
  ⟨fun ⟨h, h'⟩ => connected h h', fun h => h ▸ ⟨irrefl a, irrefl a⟩⟩

end KeyOrder

end ShardedSearch
