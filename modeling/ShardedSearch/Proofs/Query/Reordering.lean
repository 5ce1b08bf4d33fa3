import ShardedSearch.Proofs.Order.Matching
import ShardedSearch.Proofs.Query.Clauses
import ShardedSearch.Proofs.Query.Meaning

/-! # Reordered queries

Queries that differ in the order of the clauses of their joins. They mean the same, have the
same fields, and stay so in flat form, where the clauses of nested joins come together.
-/

namespace ShardedSearch.Query

/-- Queries with the same truth value whatever that of their leaves. -/
def Equivalent (p q : Query) : Prop := ∀ truth, p.holds truth = q.holds truth

theorem Equivalent.refl (q : Query) : Equivalent q q := fun _ => rfl

/-- The second query has the children of conjunctions and disjunctions in any order. The children
of a marked conjunction stay where they are, but may be reordered inside. -/
inductive Reorders : Query → Query → Prop where
  | leaf {q : Query} : q.children = [] → Reorders q q
  | and {cs es ds : List Query} : List.Forall₂ Reorders cs es → es.Perm ds →
      Reorders (.and cs) (.and ds)
  | or {cs es ds : List Query} : List.Forall₂ Reorders cs es → es.Perm ds →
      Reorders (.or cs) (.or ds)
  | marked {m : Marker} {cs ds : List Query} : List.Forall₂ Reorders cs ds →
      Reorders (.marked m cs) (.marked m ds)
  | not {c d : Query} : Reorders c d → Reorders (.not c) (.not d)

namespace Reorders

variable {p q : Query} {cs ds : List Query} {m : Marker}

/-- What joins have if their clauses have it, in whatever order, all reordered queries have. -/
theorem induct {P : Query → Query → Prop} (h : Reorders p q)
    (leaf : ∀ q, q.children = [] → P q q)
    (and : ∀ cs ds, Matched P cs ds → P (.and cs) (.and ds))
    (or : ∀ cs ds, Matched P cs ds → P (.or cs) (.or ds))
    (marked : ∀ m cs ds, List.Forall₂ P cs ds → P (.marked m cs) (.marked m ds))
    (not : ∀ c d, P c d → P (.not c) (.not d)) : P p q :=
  @Reorders.rec (fun p q _ => P p q) (fun cs ds _ => List.Forall₂ P cs ds)
    (fun hq => leaf _ hq) (fun _ hp ih => and _ _ ⟨_, ih, hp⟩) (fun _ hp ih => or _ _ ⟨_, ih, hp⟩)
    (fun _ ih => marked _ _ _ ih) (fun _ ih => not _ _ ih) .nil (fun _ _ ih ihs => .cons ih ihs)
    p q h

mutual

theorem refl : ∀ q : Query, Reorders q q
  | .and cs => .and (forall₂_refl cs) (.refl cs)
  | .or cs => .or (forall₂_refl cs) (.refl cs)
  | .marked _ cs => .marked (forall₂_refl cs)
  | .not c => .not (refl c)
  | .equality .. => .leaf rfl
  | .range .. => .leaf rfl
  | .compare .. => .leaf rfl
  | .regex .. => .leaf rfl
  | .function .. => .leaf rfl
  | .assignment .. => .leaf rfl
  | .true => .leaf rfl
  | .false => .leaf rfl

theorem forall₂_refl : ∀ cs : List Query, List.Forall₂ Reorders cs cs
  | [] => .nil
  | c :: cs => .cons (refl c) (forall₂_refl cs)

end

theorem equivalent (h : Reorders p q) : p.Equivalent q := by
  intro truth
  refine h.induct (P := fun p q => p.holds truth = q.holds truth) ?leaf ?and ?or ?marked ?not
  case leaf => exact fun q _ => rfl
  case and =>
    intro cs ds ih
    rw [holds_and, holds_and, ih.all_eq fun _ _ hcd => hcd]
  case or =>
    intro cs ds ih
    rw [holds_or, holds_or, ih.any_eq fun _ _ hcd => hcd]
  case marked =>
    intro m cs ds ih
    rw [holds_marked, holds_marked, (Matched.of_forall₂ ih).all_eq fun _ _ hcd => hcd]
  case not =>
    intro c d ih
    rw [holds, holds, ih]

theorem mem_fieldList (h : Reorders p q) (field : String) :
    field ∈ p.fieldList ↔ field ∈ q.fieldList := by
  have hall : ∀ {cs ds : List Query},
      Matched (fun c d => field ∈ c.fieldList ↔ field ∈ d.fieldList) cs ds →
        (field ∈ fieldListAll cs ↔ field ∈ fieldListAll ds) := by
    intro cs ds h
    have hnone := h.forall_iff (P := (field ∉ fieldList ·)) (Q := (field ∉ fieldList ·))
      fun c d hcd => not_congr hcd
    rw [mem_fieldListAll_iff, mem_fieldListAll_iff, ← not_iff_not]
    simpa only [not_exists, not_and] using hnone
  refine h.induct (P := fun p q => field ∈ p.fieldList ↔ field ∈ q.fieldList)
    ?leaf ?and ?or ?marked ?not
  case leaf => exact fun q _ => Iff.rfl
  case and => exact fun cs ds ih => hall ih
  case or => exact fun cs ds ih => hall ih
  case marked => exact fun m cs ds ih => hall (.of_forall₂ ih)
  case not => exact fun c d ih => ih

theorem fields_eq (h : Reorders p q) : p.fields = q.fields :=
  SortedSet.ext fun field => by rw [fields, fields, SortedSet.mem_ofList, SortedSet.mem_ofList,
    h.mem_fieldList]

/-! ### Flat form -/

theorem of_matched_and (h : Matched Reorders cs ds) : Reorders (.and cs) (.and ds) := by
  obtain ⟨es, hr, hp⟩ := h
  exact .and hr hp

theorem of_matched_or (h : Matched Reorders cs ds) : Reorders (.or cs) (.or ds) := by
  obtain ⟨es, hr, hp⟩ := h
  exact .or hr hp

theorem conjuncts (h : Reorders p q) : Matched Reorders p.conjuncts q.conjuncts := by
  cases h with
  | leaf hq =>
    cases p with
    | and cs =>
      obtain rfl : cs = [] := hq
      exact .nil
    | _ => exact .singleton (.leaf hq)
  | and hr hp => exact ⟨_, hr, hp⟩
  | or hr hp => exact .singleton (.or hr hp)
  | marked hr => exact .singleton (.marked hr)
  | not h => exact .singleton (.not h)

theorem disjuncts (h : Reorders p q) : Matched Reorders p.disjuncts q.disjuncts := by
  cases h with
  | leaf hq =>
    cases p with
    | or cs =>
      obtain rfl : cs = [] := hq
      exact .nil
    | _ => exact .singleton (.leaf hq)
  | and hr hp => exact .singleton (.and hr hp)
  | or hr hp => exact ⟨_, hr, hp⟩
  | marked hr => exact .singleton (.marked hr)
  | not h => exact .singleton (.not h)

theorem join {build : List Query → Query}
    (hbuild : ∀ {cs ds}, Matched Reorders cs ds → Reorders (build cs) (build ds))
    (h : Matched Reorders cs ds) : Reorders (Query.join build cs) (Query.join build ds) := by
  by_cases hl : cs.length = 1
  · obtain ⟨c, rfl⟩ := List.length_eq_one_iff.mp hl
    obtain ⟨d, rfl⟩ := List.length_eq_one_iff.mp (h.length_eq ▸ hl)
    exact h.rel_of_singleton
  · rw [join_of_length_ne_one hl, join_of_length_ne_one (h.length_eq ▸ hl)]
    exact hbuild h

theorem flatten (h : Reorders p q) : Reorders p.flatten q.flatten := by
  have hall : ∀ {cs ds : List Query},
      Matched (fun c d => Reorders c.flatten d.flatten) cs ds →
        Matched Reorders (flattenAll cs) (flattenAll ds) := by
    intro cs ds h
    rw [flattenAll_eq_map, flattenAll_eq_map]
    exact h.map fun _ _ hcd => hcd
  refine h.induct (P := fun p q => Reorders p.flatten q.flatten) ?leaf ?and ?or ?marked ?not
  case leaf =>
    intro q hq
    cases q with
    | and cs =>
      obtain rfl : cs = [] := hq
      exact .leaf rfl
    | or cs =>
      obtain rfl : cs = [] := hq
      exact .leaf rfl
    | marked m cs =>
      obtain rfl : cs = [] := hq
      exact .leaf rfl
    | not c => cases hq
    | _ => exact .leaf rfl
  case and =>
    intro cs ds ih
    rw [Query.flatten, Query.flatten]
    exact join of_matched_and ((hall ih).flatMap fun _ _ hcd => hcd.conjuncts)
  case or =>
    intro cs ds ih
    rw [Query.flatten, Query.flatten]
    exact join of_matched_or ((hall ih).flatMap fun _ _ hcd => hcd.disjuncts)
  case marked =>
    intro m cs ds ih
    rw [Query.flatten, Query.flatten, flattenAll_eq_map, flattenAll_eq_map]
    exact .marked (List.forall₂_map_left_iff.mpr (List.forall₂_map_right_iff.mpr ih))
  case not =>
    intro c d ih
    rw [Query.flatten, Query.flatten]
    exact .not ih

end Reorders

end ShardedSearch.Query
