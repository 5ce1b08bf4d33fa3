import ShardedSearch.Order.Key
import ShardedSearch.Text.Escape

/-! # Store keys

Entries are keyed by row, family and qualifier, compared as text in that order.
-/

namespace ShardedSearch.Store

structure Key where
  row : String
  family : String
  qualifier : String
deriving DecidableEq

namespace Key

def ofRow (row : String) : Key := ⟨row, "", ""⟩

instance : LT Key :=
  ⟨fun a b => a.row < b.row ∨ (a.row = b.row ∧
    (a.family < b.family ∨ (a.family = b.family ∧ a.qualifier < b.qualifier)))⟩

theorem lt_def {a b : Key} : a < b ↔ a.row < b.row ∨ (a.row = b.row ∧
    (a.family < b.family ∨ (a.family = b.family ∧ a.qualifier < b.qualifier))) := Iff.rfl

instance : DecidableLT Key := fun a b =>
  inferInstanceAs (Decidable (a.row < b.row ∨ (a.row = b.row ∧
    (a.family < b.family ∨ (a.family = b.family ∧ a.qualifier < b.qualifier)))))

instance : KeyOrder Key where
  irrefl a h := by rcases lt_def.1 h with h | ⟨_, h | ⟨_, h⟩⟩ <;> exact String.lt_irrefl _ h
  trans {a b c} := by
    simp only [lt_def]
    rintro (h | ⟨h, h' | ⟨h', h''⟩⟩) (k | ⟨k, k' | ⟨k', k''⟩⟩)
    · exact .inl (String.lt_trans h k)
    · exact .inl (k ▸ h)
    · exact .inl (k ▸ h)
    · exact .inl (h ▸ k)
    · exact .inr ⟨h.trans k, .inl (String.lt_trans h' k')⟩
    · exact .inr ⟨h.trans k, .inl (k' ▸ h')⟩
    · exact .inl (h ▸ k)
    · exact .inr ⟨h.trans k, .inl (h' ▸ k')⟩
    · exact .inr ⟨h.trans k, .inr ⟨h'.trans k', String.lt_trans h'' k''⟩⟩
  connected {a b} := by
    simp only [lt_def, not_or, not_and]
    intro ⟨h, h'⟩ ⟨k, k'⟩
    have hr := KeyOrder.connected h k
    have hf := KeyOrder.connected (h' hr).1 (k' hr.symm).1
    have hq := KeyOrder.connected ((h' hr).2 hf) ((k' hr.symm).2 hf.symm)
    cases a; cases b; simp_all

def text (k : Key) : String :=
  Text.escape k.row ++ " " ++ Text.escape k.family ++ ":" ++ Text.escape k.qualifier

end Key

end ShardedSearch.Store
