import ShardedSearch.Proofs.Query.Terms

/-! # Clauses of queries

The parts that conjunctions and disjunctions join, down to the leaves. The leaves of a query
over terms are its terms, with all of its fields. Flattening keeps the fields. It also drops
joins without clauses, and only so does a query come to be over terms.
-/

namespace ShardedSearch.Query

variable {p : String → String → Prop} {q c : Query} {field value : String}

/-- A part of a query that is joined to the others by conjunctions and disjunctions. -/
inductive IsClauseOf (c : Query) : Query → Prop where
  | self : IsClauseOf c c
  | and {cs : List Query} {d : Query} : d ∈ cs → IsClauseOf c d → IsClauseOf c (.and cs)
  | or {cs : List Query} {d : Query} : d ∈ cs → IsClauseOf c d → IsClauseOf c (.or cs)

/-- A clause that does not join others. A marked conjunction is one. -/
structure IsLeafOf (c q : Query) : Prop where
  clause : IsClauseOf c q
  ne_and : ∀ cs, c ≠ .and cs
  ne_or : ∀ cs, c ≠ .or cs

theorem OverTerms.clause (h : q.OverTerms p) (hc : IsClauseOf c q) : c.OverTerms p := by
  induction hc with
  | self => exact h
  | and hd _ ih => exact ih (allOverTerms_iff.mp h.2 _ hd)
  | or hd _ ih => exact ih (allOverTerms_iff.mp h.2 _ hd)

theorem OverTerms.exists_of_leaf (h : q.OverTerms p) (hc : IsLeafOf c q) :
    ∃ field value, c = equals field value ∧ p field value := by
  have hover := h.clause hc.clause
  cases c with
  | equality field literal =>
    cases literal with
    | none => exact hover.elim
    | some value => exact ⟨field, value, rfl, hover⟩
  | and cs => exact absurd rfl (hc.ne_and cs)
  | or cs => exact absurd rfl (hc.ne_or cs)
  | _ => exact hover.elim

theorem mem_fieldListAll_iff {cs : List Query} :
    field ∈ fieldListAll cs ↔ ∃ c ∈ cs, field ∈ c.fieldList := by
  induction cs with
  | nil => simp [fieldListAll]
  | cons c cs ih => simp [fieldListAll, ih]

theorem mem_fieldList_of_leaf (h : IsLeafOf (equals field value) q) : field ∈ q.fieldList := by
  obtain ⟨hclause, -, -⟩ := h
  induction hclause with
  | self => exact List.mem_singleton_self field
  | and hd _ ih => exact mem_fieldListAll_iff.mpr ⟨_, hd, ih⟩
  | or hd _ ih => exact mem_fieldListAll_iff.mpr ⟨_, hd, ih⟩

theorem IsLeafOf.and {cs : List Query} {d : Query} (hd : d ∈ cs) (h : IsLeafOf c d) :
    IsLeafOf c (.and cs) := ⟨.and hd h.clause, h.ne_and, h.ne_or⟩

theorem IsLeafOf.or {cs : List Query} {d : Query} (hd : d ∈ cs) (h : IsLeafOf c d) :
    IsLeafOf c (.or cs) := ⟨.or hd h.clause, h.ne_and, h.ne_or⟩

mutual

theorem OverTerms.exists_leaf : ∀ {q : Query}, q.OverTerms p → field ∈ q.fieldList →
    ∃ value, IsLeafOf (equals field value) q
  | equality _ (some value), _, hf => by
    obtain rfl := List.mem_singleton.mp hf
    exact ⟨value, .self, nofun, nofun⟩
  | .and _, h, hf => by
    obtain ⟨d, hd, value, hleaf⟩ := AllOverTerms.exists_leaf h.2 hf
    exact ⟨value, hleaf.and hd⟩
  | .or _, h, hf => by
    obtain ⟨d, hd, value, hleaf⟩ := AllOverTerms.exists_leaf h.2 hf
    exact ⟨value, hleaf.or hd⟩

theorem AllOverTerms.exists_leaf : ∀ {cs : List Query}, AllOverTerms p cs →
    field ∈ fieldListAll cs → ∃ d ∈ cs, ∃ value, IsLeafOf (equals field value) d
  | c :: _, h, hf => by
    rcases List.mem_append.mp hf with hf | hf
    · exact ⟨c, List.mem_cons_self, h.1.exists_leaf hf⟩
    · obtain ⟨d, hd, hleaf⟩ := h.2.exists_leaf hf
      exact ⟨d, List.mem_cons_of_mem _ hd, hleaf⟩

end

/-! ### Fields of flat queries -/

mutual

theorem fieldList_eq : ∀ q : Query, q.fieldList = gather (·.field?.toList) (fun _ _ => []) q
  | .and cs => by rw [fieldList, fieldListAll_eq cs, gather]
  | .or cs => by rw [fieldList, fieldListAll_eq cs, gather]
  | marked _ cs => by rw [fieldList, fieldListAll_eq cs, gather, List.nil_append]
  | not c => by rw [fieldList, fieldList_eq c, gather]
  | equality .. => rfl
  | range .. => rfl
  | compare .. => rfl
  | regex .. => rfl
  | function .. => rfl
  | assignment .. => rfl
  | true => rfl
  | false => rfl

theorem fieldListAll_eq : ∀ cs : List Query,
    fieldListAll cs = gatherAll (·.field?.toList) (fun _ _ => []) cs
  | [] => rfl
  | c :: cs => by rw [fieldListAll, fieldList_eq c, fieldListAll_eq cs, gatherAll]

end

theorem fieldList_flatten (q : Query) : q.flatten.fieldList = q.fieldList := by
  rw [fieldList_eq, gather_flatten, fieldList_eq]

/-! ### Joins without clauses -/

/-- Whether every conjunction and disjunction among the clauses joins something. -/
def IsFilled (q : Query) : Prop := ¬ IsClauseOf (.and []) q ∧ ¬ IsClauseOf (.or []) q

theorem isClauseOf_and_iff {cs : List Query} :
    IsClauseOf c (.and cs) ↔ c = .and cs ∨ ∃ d ∈ cs, IsClauseOf c d := by
  constructor
  · intro h
    cases h with
    | self => exact .inl rfl
    | and hd h => exact .inr ⟨_, hd, h⟩
  · rintro (rfl | ⟨d, hd, h⟩)
    · exact .self
    · exact .and hd h

theorem isClauseOf_or_iff {cs : List Query} :
    IsClauseOf c (.or cs) ↔ c = .or cs ∨ ∃ d ∈ cs, IsClauseOf c d := by
  constructor
  · intro h
    cases h with
    | self => exact .inl rfl
    | or hd h => exact .inr ⟨_, hd, h⟩
  · rintro (rfl | ⟨d, hd, h⟩)
    · exact .self
    · exact .or hd h

theorem isFilled_and {cs : List Query} :
    (Query.and cs).IsFilled ↔ cs ≠ [] ∧ ∀ c ∈ cs, c.IsFilled := by
  simp only [IsFilled, isClauseOf_and_iff]
  grind

theorem isFilled_or {cs : List Query} :
    (Query.or cs).IsFilled ↔ cs ≠ [] ∧ ∀ c ∈ cs, c.IsFilled := by
  simp only [IsFilled, isClauseOf_or_iff]
  grind

theorem isFilled_marked (m : Marker) (cs : List Query) : (marked m cs).IsFilled :=
  ⟨nofun, nofun⟩

theorem isFilled_not (q : Query) : (Query.not q).IsFilled := ⟨nofun, nofun⟩

theorem compositional_isFilled : Compositional IsFilled where
  and_iff _ := isFilled_and
  or_iff _ := isFilled_or
  marked m _ _ := isFilled_marked m _
  not c _ := isFilled_not c.flatten

theorem OverTerms.isFilled (h : q.OverTerms p) : q.IsFilled :=
  ⟨fun hc => (h.clause hc).1 rfl, fun hc => (h.clause hc).1 rfl⟩

theorem IsFilled.conjuncts_ne_nil {cs : List Query} (h : ∀ c ∈ cs, c.IsFilled) :
    ∀ c ∈ flattenAll cs, c.conjuncts ≠ [] := fun c hc =>
  (compositional_isFilled.conjuncts (compositional_isFilled.flattenAll cs h c hc)).1

theorem IsFilled.disjuncts_ne_nil {cs : List Query} (h : ∀ c ∈ cs, c.IsFilled) :
    ∀ c ∈ flattenAll cs, c.disjuncts ≠ [] := fun c hc =>
  (compositional_isFilled.disjuncts (compositional_isFilled.flattenAll cs h c hc)).1

mutual

theorem overTerms_of_flatten : ∀ q : Query, q.IsFilled → q.flatten.OverTerms p → q.OverTerms p
  | .and cs, hf, h => by
    obtain ⟨hne, hcs⟩ := isFilled_and.mp hf
    rw [flatten] at h
    have hover := Compositional.of_join_flatMap compositional_overTerms.and_iff
      (fun _ => compositional_overTerms.of_conjuncts) (IsFilled.conjuncts_ne_nil hcs) h
    exact ⟨hne, allOverTerms_of_flatten cs hcs hover⟩
  | .or cs, hf, h => by
    obtain ⟨hne, hcs⟩ := isFilled_or.mp hf
    rw [flatten] at h
    have hover := Compositional.of_join_flatMap compositional_overTerms.or_iff
      (fun _ => compositional_overTerms.of_disjuncts) (IsFilled.disjuncts_ne_nil hcs) h
    exact ⟨hne, allOverTerms_of_flatten cs hcs hover⟩
  | marked .., _, h => h
  | not _, _, h => h
  | equality .., _, h => h
  | range .., _, h => h
  | compare .., _, h => h
  | regex .., _, h => h
  | function .., _, h => h
  | assignment .., _, h => h
  | true, _, h => h
  | false, _, h => h

theorem allOverTerms_of_flatten : ∀ cs : List Query, (∀ c ∈ cs, c.IsFilled) →
    (∀ c ∈ flattenAll cs, c.OverTerms p) → AllOverTerms p cs
  | [], _, _ => trivial
  | c :: cs, hf, h => by
    rw [flattenAll] at h
    exact ⟨overTerms_of_flatten c (hf c List.mem_cons_self) (h _ List.mem_cons_self),
      allOverTerms_of_flatten cs (fun d hd => hf d (List.mem_cons_of_mem c hd))
        fun d hd => h d (List.mem_cons_of_mem _ hd)⟩

end

theorem overTerms_iff_flatten : q.OverTerms p ↔ q.flatten.OverTerms p ∧ q.IsFilled :=
  ⟨fun h => ⟨overTerms_flatten h, h.isFilled⟩, fun h => overTerms_of_flatten q h.2 h.1⟩

theorem allIndexed_iff_flatten {indexed : SortedSet String} :
    q.allIndexed indexed = Bool.true ↔
      q.flatten.allIndexed indexed = Bool.true ∧ q.IsFilled := by
  rw [allIndexed_iff, allIndexed_iff, overTerms_iff_flatten]

end ShardedSearch.Query
