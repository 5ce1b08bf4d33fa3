import ShardedSearch.Proofs.Query.Meaning
import ShardedSearch.Query.Depth

/-! # Flattening as a normal form

Flat form is a property of the nodes of a tree, each seen with its children. Flattening
reaches it in one pass and keeps the meaning, the leaves and the marked conjunctions of a
tree, which gets no deeper.
-/

namespace ShardedSearch.Query

variable {q c : Query}

/-! ### Nodes of flat queries -/

/-- A query is a node of itself, and the nodes of its children are nodes of it. -/
inductive IsNodeOf (c : Query) : Query → Prop where
  | self : IsNodeOf c c
  | child {d q : Query} : d ∈ q.children → IsNodeOf c d → IsNodeOf c q

theorem IsFlat.child (h : q.IsFlat) (hc : c ∈ q.children) : c.IsFlat := by
  cases q with
  | and cs => rw [IsFlat] at h; exact flatAll_iff.mp h.2.2 c hc
  | or cs => rw [IsFlat] at h; exact flatAll_iff.mp h.2.2 c hc
  | marked m cs => exact flatAll_iff.mp h c hc
  | not d => obtain rfl := List.mem_singleton.mp hc; exact h
  | _ => exact absurd hc List.not_mem_nil

theorem IsFlat.node (h : q.IsFlat) (hc : IsNodeOf c q) : c.IsFlat := by
  induction hc with
  | self => exact h
  | child hd _ ih => exact ih (h.child hd)

/-- A conjunction contributes its children, and no list is its own only element. -/
theorem and_ne_of_conjuncts_eq (h : c.conjuncts = [c]) (cs : List Query) : c ≠ and cs := by
  rintro rfl
  have hsize := congrArg sizeAll h
  simp only [conjuncts, sizeAll, size] at hsize
  omega

theorem or_ne_of_disjuncts_eq (h : c.disjuncts = [c]) (cs : List Query) : c ≠ or cs := by
  rintro rfl
  have hsize := congrArg sizeAll h
  simp only [disjuncts, sizeAll, size] at hsize
  omega

theorem IsFlat.and_node (h : q.IsFlat) {cs : List Query} (hc : IsNodeOf (and cs) q) :
    cs.length ≠ 1 ∧ ∀ ds, and ds ∉ cs := by
  have hflat := h.node hc
  rw [IsFlat] at hflat
  exact ⟨hflat.1, fun ds hd => and_ne_of_conjuncts_eq (hflat.2.1 _ hd) ds rfl⟩

theorem IsFlat.or_node (h : q.IsFlat) {cs : List Query} (hc : IsNodeOf (or cs) q) :
    cs.length ≠ 1 ∧ ∀ ds, or ds ∉ cs := by
  have hflat := h.node hc
  rw [IsFlat] at hflat
  exact ⟨hflat.1, fun ds hd => or_ne_of_disjuncts_eq (hflat.2.1 _ hd) ds rfl⟩

/-! ### Depth -/

theorem depth_eq_children (q : Query) : q.depth = 1 + depthAll q.children := by
  cases q <;> simp [depth, children, depthAll]

theorem depth_and (cs : List Query) : (and cs).depth = 1 + depthAll cs := depth_eq_children _

theorem depth_or (cs : List Query) : (or cs).depth = 1 + depthAll cs := depth_eq_children _

theorem depthAll_le_iff {cs : List Query} {n : Nat} :
    depthAll cs ≤ n ↔ ∀ c ∈ cs, c.depth ≤ n := by
  induction cs with
  | nil => simp [depthAll]
  | cons c cs ih => rw [depthAll, Nat.max_le, ih, List.forall_mem_cons]

theorem depth_le_depthAll {cs : List Query} (h : c ∈ cs) : c.depth ≤ depthAll cs :=
  depthAll_le_iff.mp (Nat.le_refl _) c h

theorem mem_children_of_mem_conjuncts (q c : Query) (h : c ∈ q.conjuncts) :
    c = q ∨ c ∈ q.children := by
  cases q with
  | and cs => exact .inr h
  | _ => exact .inl (List.mem_singleton.mp h)

theorem mem_children_of_mem_disjuncts (q c : Query) (h : c ∈ q.disjuncts) :
    c = q ∨ c ∈ q.children := by
  cases q with
  | or cs => exact .inr h
  | _ => exact .inl (List.mem_singleton.mp h)

section Join

variable {build : List Query → Query} {parts : Query → List Query}

theorem depth_join_le (hbuild : ∀ cs, (build cs).depth = 1 + depthAll cs) (cs : List Query) :
    (join build cs).depth ≤ 1 + depthAll cs := by
  by_cases hl : cs.length = 1
  · obtain ⟨c, rfl⟩ := List.length_eq_one_iff.mp hl
    exact Nat.le_add_left_of_le (depth_le_depthAll List.mem_cons_self)
  · exact Nat.le_of_eq (by rw [join_of_length_ne_one hl, hbuild])

theorem depthAll_flatMap_le
    (hparts : ∀ q, ∀ c ∈ parts q, c = q ∨ c ∈ q.children) (cs : List Query) :
    depthAll (cs.flatMap parts) ≤ depthAll cs := by
  refine depthAll_le_iff.mpr fun d hd => ?_
  obtain ⟨c, hc, hd⟩ := List.mem_flatMap.mp hd
  have hle := depth_le_depthAll hc
  rcases hparts c d hd with rfl | hd
  · exact hle
  · have hbelow := depth_le_depthAll hd
    rw [depth_eq_children c] at hle
    omega

end Join

mutual

theorem depth_flatten_le : ∀ q : Query, q.flatten.depth ≤ q.depth
  | and cs => by
    have hjoin := depth_join_le depth_and ((flattenAll cs).flatMap conjuncts)
    have hparts := depthAll_flatMap_le mem_children_of_mem_conjuncts (flattenAll cs)
    have hcs := depthAll_flattenAll_le cs
    rw [flatten, depth_and]
    omega
  | or cs => by
    have hjoin := depth_join_le depth_or ((flattenAll cs).flatMap disjuncts)
    have hparts := depthAll_flatMap_le mem_children_of_mem_disjuncts (flattenAll cs)
    have hcs := depthAll_flattenAll_le cs
    rw [flatten, depth_or]
    omega
  | marked m cs => by
    rw [flatten, depth, depth]
    exact Nat.add_le_add_left (depthAll_flattenAll_le cs) 1
  | not c => by
    rw [flatten, depth, depth]
    exact Nat.add_le_add_left (depth_flatten_le c) 1
  | equality .. => Nat.le_refl _
  | range .. => Nat.le_refl _
  | compare .. => Nat.le_refl _
  | regex .. => Nat.le_refl _
  | function .. => Nat.le_refl _
  | assignment .. => Nat.le_refl _
  | true => Nat.le_refl _
  | false => Nat.le_refl _

theorem depthAll_flattenAll_le : ∀ cs : List Query, depthAll (flattenAll cs) ≤ depthAll cs
  | [] => Nat.le_refl _
  | c :: cs => by
    have hc := depth_flatten_le c
    have hcs := depthAll_flattenAll_le cs
    rw [flattenAll, depthAll, depthAll]
    omega

end

/-! ### The normal form -/

def leaves : Query → List Query := gather (fun q => [q]) fun _ _ => []

/-- The marked conjunctions, each with the number of its children. -/
def marks : Query → List (Marker × Nat) := gather (fun _ => []) fun m n => [(m, n)]

/-- One pass reaches a form that a second one leaves as it is, and changes neither the truth
value nor the leaves and marked conjunctions. -/
theorem flatten_normalizes (q : Query) :
    (∀ truth, holds truth q.flatten = holds truth q) ∧
    q.flatten.leaves = q.leaves ∧
    (∀ cs, IsNodeOf (and cs) q.flatten → cs.length ≠ 1 ∧ ∀ ds, and ds ∉ cs) ∧
    (∀ cs, IsNodeOf (or cs) q.flatten → cs.length ≠ 1 ∧ ∀ ds, or ds ∉ cs) ∧
    q.flatten.marks = q.marks ∧
    q.flatten.depth ≤ q.depth ∧
    q.flatten.flatten = q.flatten :=
  have hflat := isFlat_flatten q
  ⟨fun truth => holds_flatten truth q, gather_flatten _ _ q, fun _ => hflat.and_node,
    fun _ => hflat.or_node, gather_flatten _ _ q, depth_flatten_le q,
    flatten_of_isFlat _ hflat⟩

/-- A conjunction of a single disjunction exposes it to the one above. -/
example : (or [and [or [true, false]], not true]).flatten = or [true, false, not true] := rfl

end ShardedSearch.Query
