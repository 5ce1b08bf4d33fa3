import ShardedSearch.Query.Flatten

/-! # Flat queries

In a flat query no join stands directly inside one of its own kind and none has a single
child. Flattening makes every query flat, and what a flat query contributes to a join
around it is flat again.
-/

namespace ShardedSearch.Query

mutual

def IsFlat : Query → Prop
  | and cs => cs.length ≠ 1 ∧ (∀ c ∈ cs, c.conjuncts = [c]) ∧ FlatAll cs
  | or cs => cs.length ≠ 1 ∧ (∀ c ∈ cs, c.disjuncts = [c]) ∧ FlatAll cs
  | marked _ cs => FlatAll cs
  | not c => IsFlat c
  | _ => True

def FlatAll : List Query → Prop
  | [] => True
  | c :: cs => IsFlat c ∧ FlatAll cs

end

theorem flatAll_iff {cs : List Query} : FlatAll cs ↔ ∀ c ∈ cs, c.IsFlat := by
  induction cs with
  | nil => simp [FlatAll]
  | cons c cs ih => simp [FlatAll, ih]

/-- A kind of join with what a query contributes to such a join around it. -/
structure Joins (build : List Query → Query) (parts : Query → List Query) : Prop where
  parts_build : ∀ cs, parts (build cs) = cs
  flat_build : ∀ cs, cs.length ≠ 1 → (∀ c ∈ cs, parts c = [c]) → (∀ c ∈ cs, c.IsFlat) →
    (build cs).IsFlat
  flat_parts : ∀ q, q.IsFlat → ∀ c ∈ parts q, c.IsFlat ∧ parts c = [c]

theorem joins_and : Joins and conjuncts where
  parts_build _ := rfl
  flat_build _ hl hc hf := by rw [IsFlat, flatAll_iff]; exact ⟨hl, hc, hf⟩
  flat_parts q hq c hc := by
    cases q with
    | and cs =>
      rw [IsFlat, flatAll_iff] at hq
      exact ⟨hq.2.2 c hc, hq.2.1 c hc⟩
    | _ =>
      obtain rfl := List.mem_singleton.mp hc
      exact ⟨hq, rfl⟩

theorem joins_or : Joins or disjuncts where
  parts_build _ := rfl
  flat_build _ hl hc hf := by rw [IsFlat, flatAll_iff]; exact ⟨hl, hc, hf⟩
  flat_parts q hq c hc := by
    cases q with
    | or cs =>
      rw [IsFlat, flatAll_iff] at hq
      exact ⟨hq.2.2 c hc, hq.2.1 c hc⟩
    | _ =>
      obtain rfl := List.mem_singleton.mp hc
      exact ⟨hq, rfl⟩

theorem join_of_length_ne_one {build : List Query → Query} {cs : List Query}
    (h : cs.length ≠ 1) : join build cs = build cs := by
  match cs with
  | [] => rfl
  | [_] => exact absurd rfl h
  | _ :: _ :: _ => rfl

namespace Joins

variable {build : List Query → Query} {parts : Query → List Query} {cs : List Query}

theorem parts_join (j : Joins build parts) (h : ∀ c ∈ cs, parts c = [c]) :
    parts (join build cs) = cs := by
  by_cases hl : cs.length = 1
  · obtain ⟨c, rfl⟩ := List.length_eq_one_iff.mp hl
    exact h c (List.mem_singleton_self c)
  · rw [join_of_length_ne_one hl, j.parts_build]

theorem isFlat_join (j : Joins build parts) (h : ∀ c ∈ cs, parts c = [c])
    (hf : ∀ c ∈ cs, c.IsFlat) : (join build cs).IsFlat := by
  by_cases hl : cs.length = 1
  · obtain ⟨c, rfl⟩ := List.length_eq_one_iff.mp hl
    exact hf c (List.mem_singleton_self c)
  · rw [join_of_length_ne_one hl]
    exact j.flat_build cs hl h hf

theorem flat_flatMap (j : Joins build parts) (hf : ∀ c ∈ cs, c.IsFlat) :
    ∀ c ∈ cs.flatMap parts, c.IsFlat ∧ parts c = [c] := by
  intro c hc
  obtain ⟨q, hq, hc⟩ := List.mem_flatMap.mp hc
  exact j.flat_parts q (hf q hq) c hc

theorem isFlat_join_flatMap (j : Joins build parts) (hf : ∀ c ∈ cs, c.IsFlat) :
    (join build (cs.flatMap parts)).IsFlat :=
  j.isFlat_join (fun c hc => (j.flat_flatMap hf c hc).2) fun c hc => (j.flat_flatMap hf c hc).1

end Joins

mutual

theorem isFlat_flatten : ∀ q : Query, q.flatten.IsFlat
  | and cs => by
    rw [flatten]
    exact joins_and.isFlat_join_flatMap (flatAll_iff.mp (flatAll_flattenAll cs))
  | or cs => by
    rw [flatten]
    exact joins_or.isFlat_join_flatMap (flatAll_iff.mp (flatAll_flattenAll cs))
  | marked _ cs => by rw [flatten, IsFlat]; exact flatAll_flattenAll cs
  | not c => by rw [flatten, IsFlat]; exact isFlat_flatten c
  | equality .. => trivial
  | range .. => trivial
  | compare .. => trivial
  | regex .. => trivial
  | function .. => trivial
  | assignment .. => trivial
  | true => trivial
  | false => trivial

theorem flatAll_flattenAll : ∀ cs : List Query, FlatAll (flattenAll cs)
  | [] => trivial
  | c :: cs => ⟨isFlat_flatten c, flatAll_flattenAll cs⟩

end

theorem flatMap_of_parts_eq {parts : Query → List Query} {cs : List Query}
    (h : ∀ c ∈ cs, parts c = [c]) : cs.flatMap parts = cs := by
  induction cs with
  | nil => rfl
  | cons c cs ih =>
    rw [List.flatMap_cons, h c List.mem_cons_self, ih fun d hd => h d (List.mem_cons_of_mem c hd)]
    rfl

mutual

theorem flatten_of_isFlat : ∀ q : Query, q.IsFlat → q.flatten = q
  | and cs, h => by
    rw [IsFlat] at h
    rw [flatten, flattenAll_of_flatAll cs h.2.2, flatMap_of_parts_eq h.2.1,
      join_of_length_ne_one h.1]
  | or cs, h => by
    rw [IsFlat] at h
    rw [flatten, flattenAll_of_flatAll cs h.2.2, flatMap_of_parts_eq h.2.1,
      join_of_length_ne_one h.1]
  | marked _ cs, h => by rw [flatten, flattenAll_of_flatAll cs h]
  | not c, h => by rw [flatten, flatten_of_isFlat c h]
  | equality .., _ => rfl
  | range .., _ => rfl
  | compare .., _ => rfl
  | regex .., _ => rfl
  | function .., _ => rfl
  | assignment .., _ => rfl
  | true, _ => rfl
  | false, _ => rfl

theorem flattenAll_of_flatAll : ∀ cs : List Query, FlatAll cs → flattenAll cs = cs
  | [], _ => rfl
  | c :: cs, h => by
    rw [flattenAll, flatten_of_isFlat c h.1, flattenAll_of_flatAll cs h.2]

end

/-! ### What flattening keeps -/

/-- A property of queries that joins have if they are not empty and all of their clauses have
it. -/
structure Compositional (P : Query → Prop) : Prop where
  and_iff : ∀ cs, P (and cs) ↔ cs ≠ [] ∧ ∀ c ∈ cs, P c
  or_iff : ∀ cs, P (or cs) ↔ cs ≠ [] ∧ ∀ c ∈ cs, P c
  marked : ∀ m cs, P (marked m cs) → P (marked m (flattenAll cs))
  not : ∀ c, P (not c) → P (not c.flatten)

namespace Compositional

variable {P : Query → Prop} {build : List Query → Query} {parts : Query → List Query}
variable {cs : List Query}

theorem join (h : ∀ cs, P (build cs) ↔ cs ≠ [] ∧ ∀ c ∈ cs, P c) (hne : cs ≠ [])
    (hcs : ∀ c ∈ cs, P c) : P (Query.join build cs) := by
  by_cases hl : cs.length = 1
  · obtain ⟨c, rfl⟩ := List.length_eq_one_iff.mp hl
    exact hcs c List.mem_cons_self
  · rw [join_of_length_ne_one hl]
    exact (h cs).mpr ⟨hne, hcs⟩

theorem flatMap (h : ∀ c, P c → parts c ≠ [] ∧ ∀ d ∈ parts c, P d) (hne : cs ≠ [])
    (hcs : ∀ c ∈ cs, P c) : cs.flatMap parts ≠ [] ∧ ∀ d ∈ cs.flatMap parts, P d := by
  constructor
  · obtain ⟨c, hc⟩ := List.exists_mem_of_ne_nil cs hne
    obtain ⟨d, hd⟩ := List.exists_mem_of_ne_nil _ (h c (hcs c hc)).1
    exact List.ne_nil_of_mem (List.mem_flatMap.mpr ⟨c, hc, hd⟩)
  · intro d hd
    obtain ⟨c, hc, hd⟩ := List.mem_flatMap.mp hd
    exact (h c (hcs c hc)).2 d hd

theorem conjuncts (h : Compositional P) {q : Query} (hq : P q) :
    q.conjuncts ≠ [] ∧ ∀ d ∈ q.conjuncts, P d := by
  cases q with
  | and cs => exact (h.and_iff cs).mp hq
  | _ => exact ⟨by simp [Query.conjuncts], by simpa [Query.conjuncts] using hq⟩

theorem disjuncts (h : Compositional P) {q : Query} (hq : P q) :
    q.disjuncts ≠ [] ∧ ∀ d ∈ q.disjuncts, P d := by
  cases q with
  | or cs => exact (h.or_iff cs).mp hq
  | _ => exact ⟨by simp [Query.disjuncts], by simpa [Query.disjuncts] using hq⟩

theorem of_join (h : ∀ cs, P (build cs) ↔ cs ≠ [] ∧ ∀ c ∈ cs, P c)
    (hj : P (Query.join build cs)) : ∀ c ∈ cs, P c := by
  by_cases hl : cs.length = 1
  · obtain ⟨c, rfl⟩ := List.length_eq_one_iff.mp hl
    exact List.forall_mem_singleton.mpr hj
  · rw [join_of_length_ne_one hl] at hj
    exact ((h cs).mp hj).2

theorem of_join_flatMap (h : ∀ cs, P (build cs) ↔ cs ≠ [] ∧ ∀ c ∈ cs, P c)
    (hparts : ∀ c, parts c ≠ [] → (∀ d ∈ parts c, P d) → P c) (hne : ∀ c ∈ cs, parts c ≠ [])
    (hj : P (Query.join build (cs.flatMap parts))) : ∀ c ∈ cs, P c := by
  intro c hc
  exact hparts c (hne c hc) fun d hd => of_join h hj d (List.mem_flatMap.mpr ⟨c, hc, hd⟩)

theorem of_conjuncts (h : Compositional P) {q : Query} (hne : q.conjuncts ≠ [])
    (hq : ∀ d ∈ q.conjuncts, P d) : P q := by
  cases q with
  | and cs => exact (h.and_iff cs).mpr ⟨hne, hq⟩
  | _ => exact hq _ List.mem_cons_self

theorem of_disjuncts (h : Compositional P) {q : Query} (hne : q.disjuncts ≠ [])
    (hq : ∀ d ∈ q.disjuncts, P d) : P q := by
  cases q with
  | or cs => exact (h.or_iff cs).mpr ⟨hne, hq⟩
  | _ => exact hq _ List.mem_cons_self

theorem flattenAll_ne_nil (h : cs ≠ []) : flattenAll cs ≠ [] := by
  rw [flattenAll_eq_map]
  simpa using h

mutual

theorem flatten (h : Compositional P) : ∀ q, P q → P q.flatten
  | .and cs, hq => by
    obtain ⟨hne, hcs⟩ := (h.and_iff cs).mp hq
    have hparts := flatMap (fun _ => h.conjuncts) (flattenAll_ne_nil hne) (h.flattenAll cs hcs)
    rw [Query.flatten]
    exact join h.and_iff hparts.1 hparts.2
  | .or cs, hq => by
    obtain ⟨hne, hcs⟩ := (h.or_iff cs).mp hq
    have hparts := flatMap (fun _ => h.disjuncts) (flattenAll_ne_nil hne) (h.flattenAll cs hcs)
    rw [Query.flatten]
    exact join h.or_iff hparts.1 hparts.2
  | .marked m cs, hq => h.marked m cs hq
  | .not c, hq => h.not c hq
  | .equality .., hq => hq
  | .range .., hq => hq
  | .compare .., hq => hq
  | .regex .., hq => hq
  | .function .., hq => hq
  | .assignment .., hq => hq
  | .true, hq => hq
  | .false, hq => hq

theorem flattenAll (h : Compositional P) : ∀ cs, (∀ c ∈ cs, P c) →
    ∀ c ∈ Query.flattenAll cs, P c
  | [], _ => by simp [Query.flattenAll]
  | c :: cs, hcs => by
    rw [Query.flattenAll]
    exact List.forall_mem_cons.mpr ⟨h.flatten c (hcs c List.mem_cons_self),
      h.flattenAll cs fun d hd => hcs d (List.mem_cons_of_mem c hd)⟩

end

end Compositional

/-! ### What a query has from left to right -/

section Gather

variable {α : Type} (leaf : Query → List α) (mark : Marker → Nat → List α)

mutual

/-- Something for every leaf, and for every marked conjunction with the number of its clauses,
from left to right. -/
def gather : Query → List α
  | and cs => gatherAll cs
  | or cs => gatherAll cs
  | marked m cs => mark m cs.length ++ gatherAll cs
  | not c => gather c
  | q => leaf q

def gatherAll : List Query → List α
  | [] => []
  | c :: cs => gather c ++ gatherAll cs

end

theorem gatherAll_eq (cs : List Query) :
    gatherAll leaf mark cs = cs.flatMap (gather leaf mark) := by
  induction cs with
  | nil => rfl
  | cons c cs ih => rw [gatherAll, ih, List.flatMap_cons]

theorem gather_join {build : List Query → Query}
    (hbuild : ∀ cs, gather leaf mark (build cs) = gatherAll leaf mark cs) (cs : List Query) :
    gather leaf mark (join build cs) = gatherAll leaf mark cs := by
  by_cases hl : cs.length = 1
  · obtain ⟨c, rfl⟩ := List.length_eq_one_iff.mp hl
    exact (List.append_nil _).symm
  · rw [join_of_length_ne_one hl, hbuild]

theorem gatherAll_flatMap {parts : Query → List Query}
    (hparts : ∀ c, gatherAll leaf mark (parts c) = gather leaf mark c) (cs : List Query) :
    gatherAll leaf mark (cs.flatMap parts) = gatherAll leaf mark cs := by
  rw [gatherAll_eq, List.flatMap_assoc, gatherAll_eq]
  simp only [← gatherAll_eq, hparts]

theorem gatherAll_conjuncts (q : Query) :
    gatherAll leaf mark q.conjuncts = gather leaf mark q := by
  cases q <;> simp [conjuncts, gatherAll, gather]

theorem gatherAll_disjuncts (q : Query) :
    gatherAll leaf mark q.disjuncts = gather leaf mark q := by
  cases q <;> simp [disjuncts, gatherAll, gather]

mutual

/-- Flattening keeps leaves and marked conjunctions, and their order. -/
theorem gather_flatten : ∀ q : Query, gather leaf mark q.flatten = gather leaf mark q
  | and cs => by
    rw [flatten, gather_join leaf mark fun _ => rfl,
      gatherAll_flatMap leaf mark (gatherAll_conjuncts leaf mark), gatherAll_flattenAll cs, gather]
  | or cs => by
    rw [flatten, gather_join leaf mark fun _ => rfl,
      gatherAll_flatMap leaf mark (gatherAll_disjuncts leaf mark), gatherAll_flattenAll cs, gather]
  | marked m cs => by
    rw [flatten, gather, gatherAll_flattenAll cs, flattenAll_eq_map, List.length_map, gather]
  | not c => by rw [flatten, gather, gather_flatten c, gather]
  | equality .. => rfl
  | range .. => rfl
  | compare .. => rfl
  | regex .. => rfl
  | function .. => rfl
  | assignment .. => rfl
  | true => rfl
  | false => rfl

theorem gatherAll_flattenAll : ∀ cs : List Query,
    gatherAll leaf mark (flattenAll cs) = gatherAll leaf mark cs
  | [] => rfl
  | c :: cs => by
    rw [flattenAll, gatherAll, gather_flatten c, gatherAll_flattenAll cs, gatherAll]

end

end Gather

end ShardedSearch.Query
