import ShardedSearch.Proofs.Query.Reordering
import ShardedSearch.Query.Cost

/-! # Clauses in the order of their costs

Sorting by cost works on the joins that are reached through joins alone: there clauses come in
ascending order, and those of one cost as they stood. A cost does not depend on the order of
clauses, so sorting keeps all costs, and a query that is sorted stays as it is.
-/

namespace ShardedSearch

instance : Std.Commutative addCounts where
  comm a b := by rw [addCounts, addCounts, Nat.add_comm]

instance : Std.Associative addCounts where
  assoc a b c := by
    simp only [addCounts]
    omega

namespace Query

variable {counts : SortedMap String Nat} {key : CostKey}
variable {q q' : Query} {cs ds es : List Query}

/-! ### The clauses of one join -/

theorem leastCost_eq_foldr (cs : List Query) :
    leastCost counts key cs = (cs.map (cost counts key)).foldr min maxCount := by
  induction cs with
  | nil => rfl
  | cons c cs ih => rw [leastCost, ih, List.map_cons, List.foldr_cons]

theorem totalCost_eq_foldr (cs : List Query) :
    totalCost counts key cs = (cs.map (cost counts key)).foldr addCounts 0 := by
  induction cs with
  | nil => rfl
  | cons c cs ih => rw [totalCost, ih, List.map_cons, List.foldr_cons]

variable (counts key) in
/-- The second list has the queries of the first one in ascending order of cost, and those of one
cost as they stand there. -/
structure SortsClauses (cs ds : List Query) : Prop where
  perm : cs.Perm ds
  ascending : ds.Pairwise fun c d => cost counts key c ≤ cost counts key d
  stable : ∀ n, ds.filter (cost counts key · = n) = cs.filter (cost counts key · = n)

theorem sortsClauses_sortByCost (cs : List Query) :
    SortsClauses counts key cs (sortByCost counts key cs) := by
  have htrans : ∀ a b c : Query, decide (cost counts key a ≤ cost counts key b) = Bool.true →
      decide (cost counts key b ≤ cost counts key c) = Bool.true →
        decide (cost counts key a ≤ cost counts key c) = Bool.true := by
    simp only [decide_eq_true_eq]
    exact fun a b c => Nat.le_trans
  have htotal : ∀ a b : Query, (decide (cost counts key a ≤ cost counts key b) ||
      decide (cost counts key b ≤ cost counts key a)) = Bool.true := by
    simp only [Bool.or_eq_true, decide_eq_true_eq]
    exact fun a b => Nat.le_total _ _
  have hperm : (sortByCost counts key cs).Perm cs := List.mergeSort_perm cs _
  refine ⟨hperm.symm, ?_, fun n => ?_⟩
  · exact (List.pairwise_mergeSort htrans htotal cs).imp of_decide_eq_true
  · -- Clauses of one cost are in order as they stand, and a sort leaves in place what is in order.
    have hsame : (cs.filter (cost counts key · = n)).Pairwise fun c d =>
        decide (cost counts key c ≤ cost counts key d) = Bool.true := by
      refine List.pairwise_of_forall_mem_list fun c hc d hd => ?_
      rw [List.mem_filter, decide_eq_true_eq] at hc hd
      exact decide_eq_true (Nat.le_of_eq (hc.2.trans hd.2.symm))
    have hsub := (List.sublist_mergeSort htrans htotal hsame List.filter_sublist).filter
      (cost counts key · = n)
    rw [List.filter_filter] at hsub
    simp only [Bool.and_self] at hsub
    exact (hsub.eq_of_length (hperm.filter _).length_eq.symm).symm

section Determined

variable (h : ∀ n, ds.filter (cost counts key · = n) = es.filter (cost counts key · = n))
include h

theorem mem_iff_of_filter_eq (c : Query) : c ∈ ds ↔ c ∈ es := by
  have hc := congrArg (c ∈ ·) (h (cost counts key c))
  simpa using hc

theorem eq_of_filter_eq (hd : ds.Pairwise fun c d => cost counts key c ≤ cost counts key d)
    (he : es.Pairwise fun c d => cost counts key c ≤ cost counts key d) : ds = es := by
  have hmem := mem_iff_of_filter_eq h
  induction ds generalizing es with
  | nil =>
    refine (List.eq_nil_iff_forall_not_mem.mpr fun c hc => ?_).symm
    exact List.not_mem_nil ((hmem c).mpr hc)
  | cons d ds ih =>
    cases es with
    | nil => exact absurd ((hmem d).mp List.mem_cons_self) List.not_mem_nil
    | cons e es =>
      obtain ⟨hle, hds⟩ := List.pairwise_cons.mp hd
      obtain ⟨hle', hes⟩ := List.pairwise_cons.mp he
      -- Both heads have the least cost, so each is the first clause of that cost.
      have hcost : cost counts key d = cost counts key e := by
        rcases List.mem_cons.mp ((hmem e).mpr List.mem_cons_self) with rfl | hed
        · rfl
        rcases List.mem_cons.mp ((hmem d).mp List.mem_cons_self) with rfl | hde
        · rfl
        exact Nat.le_antisymm (hle e hed) (hle' d hde)
      have hhead := h (cost counts key d)
      simp only [List.filter_cons, hcost, decide_true, if_true, List.cons.injEq] at hhead
      obtain ⟨rfl, -⟩ := hhead
      have hrest : ∀ n, ds.filter (cost counts key · = n) = es.filter (cost counts key · = n) := by
        intro n
        have hn := h n
        simp only [List.filter_cons] at hn
        split at hn
        · exact (List.cons.inj hn).2
        · exact hn
      exact congrArg _ (ih hrest hds hes (mem_iff_of_filter_eq hrest))

end Determined

theorem SortsClauses.unique (hd : SortsClauses counts key cs ds)
    (he : SortsClauses counts key cs es) : ds = es :=
  eq_of_filter_eq (fun n => (hd.stable n).trans (he.stable n).symm) hd.ascending he.ascending

/-! ### Whole queries -/

variable (counts key) in
/-- The second query is the first one sorted by cost. The clauses of a join are each sorted, and
then put in order; what is no join is left as it is, with all that it has inside. -/
inductive Sorts : Query → Query → Prop where
  | and {cs es ds : List Query} : List.Forall₂ Sorts cs es → SortsClauses counts key es ds →
      Sorts (.and cs) (.and ds)
  | or {cs es ds : List Query} : List.Forall₂ Sorts cs es → SortsClauses counts key es ds →
      Sorts (.or cs) (.or ds)
  | kept {q : Query} : (∀ cs, q ≠ .and cs) → (∀ cs, q ≠ .or cs) → Sorts q q

mutual

theorem sorts_orderByCost : ∀ q : Query, Sorts counts key q (orderByCost counts key q)
  | and cs => .and (forall₂_orderByCostAll cs) (sortsClauses_sortByCost _)
  | or cs => .or (forall₂_orderByCostAll cs) (sortsClauses_sortByCost _)
  | marked .. => .kept nofun nofun
  | not _ => .kept nofun nofun
  | equality .. => .kept nofun nofun
  | range .. => .kept nofun nofun
  | compare .. => .kept nofun nofun
  | regex .. => .kept nofun nofun
  | function .. => .kept nofun nofun
  | assignment .. => .kept nofun nofun
  | true => .kept nofun nofun
  | false => .kept nofun nofun

theorem forall₂_orderByCostAll : ∀ cs : List Query,
    List.Forall₂ (Sorts counts key) cs (orderByCostAll counts key cs)
  | [] => .nil
  | c :: cs => .cons (sorts_orderByCost c) (forall₂_orderByCostAll cs)

end

namespace Sorts

theorem induct {P : Query → Query → Prop} (h : Sorts counts key q q')
    (and : ∀ cs es ds, List.Forall₂ P cs es → SortsClauses counts key es ds →
      P (.and cs) (.and ds))
    (or : ∀ cs es ds, List.Forall₂ P cs es → SortsClauses counts key es ds → P (.or cs) (.or ds))
    (kept : ∀ q, (∀ cs, q ≠ .and cs) → (∀ cs, q ≠ .or cs) → P q q) : P q q' :=
  @Sorts.rec counts key (fun q q' _ => P q q') (fun cs es _ => List.Forall₂ P cs es)
    (fun _ hs ih => and _ _ _ ih hs) (fun _ hs ih => or _ _ _ ih hs)
    (fun hand hor => kept _ hand hor) .nil (fun _ _ ih ihs => .cons ih ihs) q q' h

theorem reorders (h : Sorts counts key q q') : Reorders q q' := by
  refine h.induct (P := Reorders) ?and ?or ?kept
  case and => exact fun cs es ds ih hs => .and ih hs.perm
  case or => exact fun cs es ds ih hs => .or ih hs.perm
  case kept => exact fun q _ _ => .refl q

theorem cost_eq (h : Sorts counts key q q') : cost counts key q' = cost counts key q := by
  have hall : ∀ {cs es ds : List Query},
      List.Forall₂ (fun c e => cost counts key e = cost counts key c) cs es →
        SortsClauses counts key es ds →
          (cs.map (cost counts key)).Perm (ds.map (cost counts key)) := by
    intro cs es ds ih hs
    have hmatched : Matched _ cs ds := ⟨es, ih, hs.perm⟩
    exact hmatched.perm_map fun _ _ hce => hce.symm
  refine h.induct (P := fun q q' => cost counts key q' = cost counts key q) ?and ?or ?kept
  case and =>
    intro cs es ds ih hs
    rw [cost, cost, leastCost_eq_foldr, leastCost_eq_foldr, (hall ih hs).foldr_op_eq]
  case or =>
    intro cs es ds ih hs
    rw [cost, cost, totalCost_eq_foldr, totalCost_eq_foldr, (hall ih hs).foldr_op_eq]
  case kept => exact fun _ _ _ => rfl

theorem eq_orderByCost (h : Sorts counts key q q') : q' = orderByCost counts key q := by
  have hall : ∀ {cs es ds : List Query},
      List.Forall₂ (fun c e => e = orderByCost counts key c) cs es →
        SortsClauses counts key es ds →
          ds = sortByCost counts key (orderByCostAll counts key cs) := by
    intro cs es ds ih hs
    have hes : es = orderByCostAll counts key cs := by
      clear hs
      induction ih with
      | nil => rfl
      | cons he _ ih => rw [orderByCostAll, he, ih]
    subst hes
    exact hs.unique (sortsClauses_sortByCost _)
  refine h.induct (P := fun q q' => q' = orderByCost counts key q) ?and ?or ?kept
  case and =>
    intro cs es ds ih hs
    rw [orderByCost, hall ih hs]
  case or =>
    intro cs es ds ih hs
    rw [orderByCost, hall ih hs]
  case kept =>
    intro q hand hor
    cases q with
    | and cs => exact absurd rfl (hand cs)
    | or cs => exact absurd rfl (hor cs)
    | _ => rfl

theorem self (h : Sorts counts key q q') : Sorts counts key q' q' := by
  have hall : ∀ {cs es ds : List Query}, List.Forall₂ (fun _ e => Sorts counts key e e) cs es →
      SortsClauses counts key es ds →
        List.Forall₂ (Sorts counts key) ds ds ∧ SortsClauses counts key ds ds := by
    intro cs es ds ih hs
    have hmatched : Matched _ cs ds := ⟨es, ih, hs.perm⟩
    refine ⟨List.forall₂_same.mpr fun d hd => ?_, .refl ds, hs.ascending, fun _ => rfl⟩
    obtain ⟨c, -, hd⟩ := hmatched.exists_left hd
    exact hd
  refine h.induct (P := fun _ q' => Sorts counts key q' q') ?and ?or ?kept
  case and => exact fun cs es ds ih hs => .and (hall ih hs).1 (hall ih hs).2
  case or => exact fun cs es ds ih hs => .or (hall ih hs).1 (hall ih hs).2
  case kept => exact fun q hand hor => .kept hand hor

end Sorts

variable (counts key) in
theorem holds_orderByCost (truth : Query → Bool) (q : Query) :
    holds truth (orderByCost counts key q) = holds truth q :=
  ((sorts_orderByCost q).reorders.equivalent truth).symm

/-- Ordering by cost sorts the clauses of joins that are reached through joins, and does nothing
else: the query means the same, every part that is sorted costs the same, and doing it again
changes nothing. -/
theorem orderByCost_sorts (counts : SortedMap String Nat) (key : CostKey) (q : Query) :
    (∀ q', Sorts counts key q q' ↔ q' = orderByCost counts key q) ∧
    (∀ truth, holds truth (orderByCost counts key q) = holds truth q) ∧
    (∀ c c', Sorts counts key c c' → cost counts key c' = cost counts key c) ∧
    orderByCost counts key (orderByCost counts key q) = orderByCost counts key q := by
  have hsorts : Sorts counts key q (orderByCost counts key q) := sorts_orderByCost q
  refine ⟨fun q' => ⟨Sorts.eq_orderByCost, ?_⟩, fun truth => ?_, fun c c' => Sorts.cost_eq, ?_⟩
  · rintro rfl
    exact hsorts
  · exact holds_orderByCost counts key truth q
  · exact hsorts.self.eq_orderByCost.symm

/-- A disjunction costs as much as its clauses together, so it moves behind a cheaper one. -/
example : orderByCost (.ofList [("A", 3), ("B", 2), ("C", 4)]) .field
    (and [or [equals "A" "1", equals "B" "1"], equals "D" "1", equals "C" "1"]) =
      and [equals "C" "1", or [equals "B" "1", equals "A" "1"], equals "D" "1"] := by
  cbv

end Query

end ShardedSearch
