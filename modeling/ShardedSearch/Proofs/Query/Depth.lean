import ShardedSearch.Plan.Prepare
import ShardedSearch.Proofs.Query.Flattening

/-! # Searching for the depth

A search keeps a stack of trees with their levels. The deepest level that a stack leads to stays
the same from step to step, whatever tree comes next, so every search ends with the depth of its
tree, cut off behind the limit.
-/

namespace ShardedSearch.Query

variable {q : Query} {limit deepest level : Nat} {stack : List (Query × Nat)} {cs : List Query}

/-- The deepest level that trees lead to, each from its own level on. -/
def deepestLevel (deepest : Nat) : List (Query × Nat) → Nat
  | [] => deepest
  | (q, level) :: stack => max (level + q.depth - 1) (deepestLevel deepest stack)

theorem one_le_depth (q : Query) : 1 ≤ q.depth := by
  rw [depth_eq_children]
  omega

theorem deepestLevel_max (deepest level : Nat) (stack : List (Query × Nat)) :
    deepestLevel (max deepest level) stack = max level (deepestLevel deepest stack) := by
  induction stack with
  | nil => exact Nat.max_comm ..
  | cons e stack ih =>
    rw [deepestLevel, deepestLevel, ih]
    omega

theorem max_deepestLevel_children (deepest level : Nat) (cs : List Query)
    (stack : List (Query × Nat)) :
    max level (deepestLevel deepest (cs.map (·, level + 1) ++ stack)) =
      max (level + depthAll cs) (deepestLevel deepest stack) := by
  induction cs with
  | nil => rfl
  | cons c cs ih =>
    rw [List.map_cons, List.cons_append, deepestLevel, depthAll]
    omega

theorem deepestLevel_step (deepest level : Nat) (q : Query) (stack : List (Query × Nat)) :
    deepestLevel (max deepest level) (q.children.map (·, level + 1) ++ stack) =
      deepestLevel deepest ((q, level) :: stack) := by
  rw [deepestLevel_max, max_deepestLevel_children, deepestLevel, depth_eq_children]
  congr 1
  omega

theorem deepestLevel_perm {stack' : List (Query × Nat)} (h : stack.Perm stack') :
    deepestLevel deepest stack = deepestLevel deepest stack' := by
  induction h with
  | nil => rfl
  | cons e _ ih => simp only [deepestLevel, ih]
  | swap e e' stack => simp only [deepestLevel, Nat.max_left_comm]
  | trans _ _ ih ih' => exact ih.trans ih'

/-- A search in which any of the waiting trees may come next: from a deepest level and a stack
to the level that it ends with. -/
inductive Visits (limit : Nat) : Nat → List (Query × Nat) → Nat → Prop where
  | done (deepest : Nat) : Visits limit deepest [] deepest
  | pass {deepest level : Nat} {q : Query} {stack rest : List (Query × Nat)}
      (hnext : stack.Perm ((q, level) :: rest)) (hpast : limit < max deepest level) :
      Visits limit deepest stack (max deepest level)
  | visit {deepest level found : Nat} {q : Query} {stack rest : List (Query × Nat)}
      (hnext : stack.Perm ((q, level) :: rest)) (hwithin : max deepest level ≤ limit)
      (hrest : Visits limit (max deepest level) (q.children.map (·, level + 1) ++ rest) found) :
      Visits limit deepest stack found

theorem visits_search (limit deepest : Nat) (stack : List (Query × Nat)) :
    Visits limit deepest stack (search limit deepest stack) := by
  induction deepest, stack using search.induct limit with
  | case1 deepest =>
    rw [search]
    exact .done deepest
  | case2 deepest q level stack d hpast =>
    rw [search, if_pos hpast]
    exact .pass (List.Perm.refl _) hpast
  | case3 deepest q level stack d hwithin ih =>
    rw [search, if_neg hwithin]
    exact .visit (List.Perm.refl _) (Nat.not_lt.mp hwithin) ih

/-- A search that has not passed the limit ends at the deepest level, or just behind the limit,
whatever it takes up next. -/
theorem Visits.eq_min {found : Nat} (h : Visits limit deepest stack found)
    (hdeepest : deepest ≤ limit) (hlevels : ∀ e ∈ stack, e.2 ≤ limit + 1) :
    found = min (deepestLevel deepest stack) (limit + 1) := by
  induction h with
  | done deepest =>
    simp only [deepestLevel]
    omega
  | @pass deepest level q stack rest hnext hpast =>
    have hlevel : level ≤ limit + 1 := hlevels (q, level) (hnext.mem_iff.mpr List.mem_cons_self)
    have hdepth := one_le_depth q
    rw [deepestLevel_perm hnext, deepestLevel]
    omega
  | @visit deepest level found q stack rest hnext hwithin _ ih =>
    rw [deepestLevel_perm hnext, ← deepestLevel_step]
    refine ih hwithin fun e he => ?_
    rcases List.mem_append.mp he with he | he
    · obtain ⟨c, -, rfl⟩ := List.mem_map.mp he
      exact Nat.succ_le_succ (Nat.le_trans (Nat.le_max_right ..) hwithin)
    · exact hlevels e (hnext.mem_iff.mpr (List.mem_cons_of_mem _ he))

theorem visits_iff (found : Nat) :
    Visits limit 0 [(q, 1)] found ↔ found = min q.depth (limit + 1) := by
  have hmin : ∀ {n}, Visits limit 0 [(q, 1)] n → n = min q.depth (limit + 1) := fun h => by
    rw [h.eq_min (Nat.zero_le _) (by simp), deepestLevel, deepestLevel]
    omega
  constructor
  · exact hmin
  · rintro rfl
    exact hmin (visits_search limit 0 [(q, 1)]) ▸ visits_search limit 0 [(q, 1)]

theorem depthWithin_eq_min (limit : Nat) (q : Query) :
    q.depthWithin limit = min q.depth (limit + 1) :=
  (visits_iff _).mp (visits_search limit 0 [(q, 1)])

theorem prepare_of_depth_le {maxDepth : Nat} (h : q.flatten.depth ≤ maxDepth) :
    q.prepare maxDepth = .ok q.flatten := by
  have hwithin : ¬ maxDepth < q.flatten.depthWithin maxDepth := by
    rw [depthWithin_eq_min]
    omega
  exact if_neg hwithin

theorem prepare_of_lt_depth {maxDepth : Nat} (h : maxDepth < q.flatten.depth) :
    q.prepare maxDepth = .error (.depthExceeded (maxDepth + 1) maxDepth) := by
  have hfound : q.flatten.depthWithin maxDepth = maxDepth + 1 := by
    rw [depthWithin_eq_min]
    omega
  simp only [prepare, hfound, if_pos (Nat.lt_succ_self maxDepth)]

/-- Whatever tree a search takes up next, it finds the depth or the first level past the limit.
So a query is refused just if its flat form is too deep, always with the first depth past the
limit, and a query that has been prepared once is prepared again as it is. -/
theorem prepare_by_depth (q : Query) (limit : Nat) :
    (∀ found, Visits limit 0 [(q, 1)] found ↔ found = min q.depth (limit + 1)) ∧
    q.depthWithin limit = min q.depth (limit + 1) ∧
    (∀ e, q.prepare limit = .error e ↔
      limit < q.flatten.depth ∧ e = .depthExceeded (limit + 1) limit) ∧
    (∀ tree, q.prepare limit = .ok tree ↔ q.flatten.depth ≤ limit ∧ tree = q.flatten) ∧
    (q.prepare limit >>= fun tree => tree.prepare limit) = q.prepare limit := by
  refine ⟨visits_iff, depthWithin_eq_min limit q, ?_⟩
  rcases Nat.lt_or_ge limit q.flatten.depth with hdeep | hflat
  · rw [prepare_of_lt_depth hdeep]
    refine ⟨fun e => ?_, fun tree => ?_, rfl⟩
    · simp [hdeep, eq_comm]
    · simp [Nat.not_le.mpr hdeep]
  · have hagain : q.flatten.flatten = q.flatten := flatten_of_isFlat _ (isFlat_flatten q)
    rw [prepare_of_depth_le hflat]
    refine ⟨fun e => ?_, fun tree => ?_, ?_⟩
    · simp [Nat.not_lt.mpr hflat]
    · simp [hflat, eq_comm]
    · change q.flatten.prepare limit = .ok q.flatten
      rw [prepare_of_depth_le (hagain.symm ▸ hflat), hagain]

end ShardedSearch.Query
