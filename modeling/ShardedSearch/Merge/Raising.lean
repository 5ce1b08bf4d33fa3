import ShardedSearch.PlanError

/-! # Raised errors

Results that come with the errors met on the way. A stream that meets an error goes on
without it, and who reads the stream learns of the error. What is computed never depends
on the errors raised before.
-/

namespace ShardedSearch

structure Raising (α : Type) where
  value : α
  /-- In the order in which they were raised. -/
  errors : List PlanError

namespace Raising

instance : Monad Raising where
  pure a := ⟨a, []⟩
  bind x f := ⟨(f x.value).value, x.errors ++ (f x.value).errors⟩

variable {α β : Type}

@[simp]
theorem value_pure (a : α) : (pure a : Raising α).value = a := rfl

@[simp]
theorem errors_pure (a : α) : (pure a : Raising α).errors = [] := rfl

@[simp]
theorem value_bind (x : Raising α) (f : α → Raising β) :
    (x >>= f).value = (f x.value).value := rfl

@[simp]
theorem errors_bind (x : Raising α) (f : α → Raising β) :
    (x >>= f).errors = x.errors ++ (f x.value).errors := rfl

instance : LawfulMonad Raising := LawfulMonad.mk' Raising
  (fun x => by cases x; simp [Functor.map])
  (fun a f => by simp [bind, pure])
  (fun x f g => by simp [bind, List.append_assoc])

def raise (e : PlanError) : Raising Unit := ⟨(), [e]⟩

def raise? (e : Option PlanError) : Raising Unit := ⟨(), e.toList⟩

def first? (x : Raising α) : Option PlanError := x.errors.head?

end Raising

end ShardedSearch
