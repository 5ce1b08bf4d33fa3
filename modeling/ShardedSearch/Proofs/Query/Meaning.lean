import ShardedSearch.Proofs.Query.Flat

/-! # Meaning of queries

The truth value of a query, given one for each of its leaves. Flat form and joins of parts do
not change it.
-/

namespace ShardedSearch.Query

mutual

def holds (truth : Query → Bool) : Query → Bool
  | and cs => allHold truth cs
  | or cs => anyHolds truth cs
  | marked _ cs => allHold truth cs
  | not c => !holds truth c
  | true => Bool.true
  | false => Bool.false
  | q => truth q

def allHold (truth : Query → Bool) : List Query → Bool
  | [] => Bool.true
  | c :: cs => holds truth c && allHold truth cs

def anyHolds (truth : Query → Bool) : List Query → Bool
  | [] => Bool.false
  | c :: cs => holds truth c || anyHolds truth cs

end

variable (truth : Query → Bool)

theorem allHold_eq (cs : List Query) : allHold truth cs = cs.all (holds truth) := by
  induction cs with
  | nil => rfl
  | cons c cs ih => rw [allHold, ih, List.all_cons]

theorem anyHolds_eq (cs : List Query) : anyHolds truth cs = cs.any (holds truth) := by
  induction cs with
  | nil => rfl
  | cons c cs ih => rw [anyHolds, ih, List.any_cons]

@[simp]
theorem holds_and (cs : List Query) : holds truth (and cs) = cs.all (holds truth) := by
  rw [holds, allHold_eq]

@[simp]
theorem holds_or (cs : List Query) : holds truth (or cs) = cs.any (holds truth) := by
  rw [holds, anyHolds_eq]

@[simp]
theorem holds_marked (m : Marker) (cs : List Query) :
    holds truth (marked m cs) = cs.all (holds truth) := by
  rw [holds, allHold_eq]

theorem holds_join_and (cs : List Query) : holds truth (join and cs) = cs.all (holds truth) := by
  rcases cs with _ | ⟨c, _ | ⟨d, cs⟩⟩
  · exact holds_and truth []
  · simp [join]
  · exact holds_and truth (c :: d :: cs)

theorem holds_join_or (cs : List Query) : holds truth (join or cs) = cs.any (holds truth) := by
  rcases cs with _ | ⟨c, _ | ⟨d, cs⟩⟩
  · exact holds_or truth []
  · simp [join]
  · exact holds_or truth (c :: d :: cs)

theorem all_conjuncts (q : Query) : q.conjuncts.all (holds truth) = holds truth q := by
  cases q <;> simp [conjuncts]

theorem any_disjuncts (q : Query) : q.disjuncts.any (holds truth) = holds truth q := by
  cases q <;> simp [disjuncts]

theorem all_flatMap_conjuncts (cs : List Query) :
    (cs.flatMap conjuncts).all (holds truth) = cs.all (holds truth) := by
  rw [List.all_flatMap]
  exact congrArg cs.all (funext (all_conjuncts truth))

theorem any_flatMap_disjuncts (cs : List Query) :
    (cs.flatMap disjuncts).any (holds truth) = cs.any (holds truth) := by
  rw [List.any_flatMap]
  exact congrArg cs.any (funext (any_disjuncts truth))

mutual

theorem holds_flatten : ∀ q : Query, holds truth q.flatten = holds truth q
  | and cs => by
    rw [flatten, holds_join_and, all_flatMap_conjuncts, all_flattenAll cs, holds_and]
  | or cs => by
    rw [flatten, holds_join_or, any_flatMap_disjuncts, any_flattenAll cs, holds_or]
  | marked m cs => by rw [flatten, holds_marked, all_flattenAll cs, holds_marked]
  | not c => by rw [flatten, holds, holds_flatten c, holds]
  | equality .. => rfl
  | range .. => rfl
  | compare .. => rfl
  | regex .. => rfl
  | function .. => rfl
  | assignment .. => rfl
  | true => rfl
  | false => rfl

theorem all_flattenAll : ∀ cs : List Query,
    (flattenAll cs).all (holds truth) = cs.all (holds truth)
  | [] => rfl
  | c :: cs => by
    rw [flattenAll, List.all_cons, List.all_cons, holds_flatten c, all_flattenAll cs]

theorem any_flattenAll : ∀ cs : List Query,
    (flattenAll cs).any (holds truth) = cs.any (holds truth)
  | [] => rfl
  | c :: cs => by
    rw [flattenAll, List.any_cons, List.any_cons, holds_flatten c, any_flattenAll cs]

end

end ShardedSearch.Query
