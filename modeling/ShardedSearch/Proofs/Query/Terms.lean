import ShardedSearch.Proofs.Order.Collections
import ShardedSearch.Proofs.Query.Meaning
import ShardedSearch.Query.Terms

/-! # Queries over terms

Queries made of terms by joins of at least one clause. Flattening keeps them so. The
terms to look up for such a query are its terms.
-/

namespace ShardedSearch

namespace Query

variable {p : String → String → Prop}

mutual

/-- Whether a query joins terms with a property, and no join is empty. -/
def OverTerms (p : String → String → Prop) : Query → Prop
  | equality field (some value) => p field value
  | and cs => cs ≠ [] ∧ AllOverTerms p cs
  | or cs => cs ≠ [] ∧ AllOverTerms p cs
  | _ => False

def AllOverTerms (p : String → String → Prop) : List Query → Prop
  | [] => True
  | c :: cs => OverTerms p c ∧ AllOverTerms p cs

end

theorem allOverTerms_iff {cs : List Query} : AllOverTerms p cs ↔ ∀ c ∈ cs, c.OverTerms p := by
  induction cs with
  | nil => simp [AllOverTerms]
  | cons c cs ih => simp [AllOverTerms, ih]

mutual

theorem OverTerms.mono {p' : String → String → Prop}
    (h : ∀ field value, p field value → p' field value) :
    ∀ {q : Query}, q.OverTerms p → q.OverTerms p'
  | equality _ (some _), hq => h _ _ hq
  | and _, hq => ⟨hq.1, AllOverTerms.mono h hq.2⟩
  | or _, hq => ⟨hq.1, AllOverTerms.mono h hq.2⟩

theorem AllOverTerms.mono {p' : String → String → Prop}
    (h : ∀ field value, p field value → p' field value) :
    ∀ {cs : List Query}, AllOverTerms p cs → AllOverTerms p' cs
  | [], _ => trivial
  | _ :: _, hcs => ⟨OverTerms.mono h hcs.1, AllOverTerms.mono h hcs.2⟩

end

theorem compositional_overTerms : Compositional (OverTerms p) where
  and_iff _ := by rw [OverTerms, allOverTerms_iff]
  or_iff _ := by rw [OverTerms, allOverTerms_iff]
  marked _ _ h := h
  not _ h := h

theorem overTerms_flatten {q : Query} (h : q.OverTerms p) : q.flatten.OverTerms p :=
  compositional_overTerms.flatten q h

theorem exists_of_overTerms : ∀ {q : Query}, q.OverTerms p → ∃ field value, p field value
  | equality field (some value), h => ⟨field, value, h⟩
  | and [], h => absurd rfl h.1
  | and (_ :: _), h => exists_of_overTerms h.2.1
  | or [], h => absurd rfl h.1
  | or (_ :: _), h => exists_of_overTerms h.2.1

/-! ### Indexed queries -/

variable {indexed : SortedSet String} {other : String}

mutual

theorem allIndexed_iff : ∀ q : Query, q.allIndexed indexed = Bool.true ↔
    q.OverTerms fun field _ => isLookedUp indexed field = Bool.true
  | equality _ (some _) => Iff.rfl
  | and cs => by
    rw [allIndexed, Bool.and_eq_true, OverTerms, eachIndexed_iff cs]
    simp
  | or cs => by
    rw [allIndexed, Bool.and_eq_true, OverTerms, eachIndexed_iff cs]
    simp
  | equality _ none => by simp [allIndexed, OverTerms]
  | range .. => by simp [allIndexed, OverTerms]
  | compare .. => by simp [allIndexed, OverTerms]
  | regex .. => by simp [allIndexed, OverTerms]
  | function .. => by simp [allIndexed, OverTerms]
  | assignment .. => by simp [allIndexed, OverTerms]
  | marked .. => by simp [allIndexed, OverTerms]
  | not _ => by simp [allIndexed, OverTerms]
  | true => by simp [allIndexed, OverTerms]
  | false => by simp [allIndexed, OverTerms]

theorem eachIndexed_iff : ∀ cs : List Query, eachIndexed indexed cs = Bool.true ↔
    AllOverTerms (fun field _ => isLookedUp indexed field = Bool.true) cs
  | [] => by simp [eachIndexed, AllOverTerms]
  | c :: cs => by
    rw [eachIndexed, Bool.and_eq_true, AllOverTerms, allIndexed_iff c, eachIndexed_iff cs]

end

mutual

theorem OverTerms.and_fields {r : String → Prop} : ∀ {q : Query}, q.OverTerms p →
    (∀ field ∈ q.fieldList, r field) → q.OverTerms fun field value => p field value ∧ r field
  | equality field (some _), hq, hr => ⟨hq, hr field (List.mem_singleton_self field)⟩
  | and _, hq, hr => ⟨hq.1, hq.2.and_fields hr⟩
  | or _, hq, hr => ⟨hq.1, hq.2.and_fields hr⟩

theorem AllOverTerms.and_fields {r : String → Prop} : ∀ {cs : List Query}, AllOverTerms p cs →
    (∀ field ∈ fieldListAll cs, r field) →
      AllOverTerms (fun field value => p field value ∧ r field) cs
  | [], _, _ => trivial
  | _ :: _, hcs, hr => ⟨hcs.1.and_fields fun f hf => hr f (List.mem_append_left _ hf),
      hcs.2.and_fields fun f hf => hr f (List.mem_append_right _ hf)⟩

end

theorem overTerms_of_allIndexed (q : Query) (h : q.allIndexed indexed = Bool.true)
    (ho : other ∉ q.fieldList) : q.OverTerms fun field _ =>
      isLookedUp indexed field = Bool.true ∧ field ≠ other :=
  ((allIndexed_iff q).mp h).and_fields fun _ hf he => ho (he ▸ hf)

mutual

theorem overTerms_indexedPairs : ∀ q : Query, q.allIndexed indexed = Bool.true →
    q.OverTerms fun field value => (field, value) ∈ q.indexedPairs indexed
  | equality field (some value), h => by
    rw [OverTerms, indexedPairs, if_pos (show isLookedUp indexed field = Bool.true from h)]
    exact List.mem_singleton_self _
  | and cs, h => by
    rw [allIndexed, Bool.and_eq_true] at h
    rw [indexedPairs]
    exact ⟨by simpa using h.1, allOverTerms_indexedPairs cs h.2 fun p hp => hp⟩
  | or cs, h => by
    rw [allIndexed, Bool.and_eq_true] at h
    rw [indexedPairs]
    exact ⟨by simpa using h.1, allOverTerms_indexedPairs cs h.2 fun p hp => hp⟩

theorem allOverTerms_indexedPairs {pairs : List (String × String)} : ∀ cs : List Query,
    eachIndexed indexed cs = Bool.true → (∀ p ∈ indexedPairsAll indexed cs, p ∈ pairs) →
      AllOverTerms (fun field value => (field, value) ∈ pairs) cs
  | [], _, _ => trivial
  | c :: cs, h, hp => by
    rw [eachIndexed, Bool.and_eq_true] at h
    rw [indexedPairsAll] at hp
    exact ⟨(overTerms_indexedPairs c h.1).mono fun field value hm =>
        hp _ (List.mem_append_left _ hm),
      allOverTerms_indexedPairs cs h.2 fun p hm => hp p (List.mem_append_right _ hm)⟩

end

end Query

namespace Terms

variable {terms : Terms} {field value : String}

theorem has_iff : terms.has value field = true ↔ ∃ fields, terms.get? value = some fields ∧
    field ∈ fields := by
  unfold has
  split <;> simp_all

def IsProper (terms : Terms) : Prop := ∀ value fields, terms.get? value = some fields →
  ∃ field, field ∈ fields

theorem has_add (terms : Terms) (f v : String) :
    (terms.add f v).has value field = true ↔
      terms.has value field = true ∨ (field = f ∧ value = v) := by
  rw [has_iff, has_iff, add, SortedMap.get?_insertWith]
  by_cases hv : value = v
  · subst hv
    cases h : terms.get? value <;> simp [SortedSet.mem_union, SortedSet.mem_insert]
  · simp [hv]

theorem isProper_add (h : terms.IsProper) (f v : String) : (terms.add f v).IsProper := by
  intro value fields hf
  rw [add, SortedMap.get?_insertWith] at hf
  split at hf
  · refine ⟨f, ?_⟩
    obtain rfl := Option.some.inj hf
    cases terms.get? v <;> simp [SortedSet.mem_union, SortedSet.mem_insert]
  · exact h value fields hf

theorem has_foldl_add (ps : List (String × String)) :
    (ps.foldl (fun terms p => terms.add p.1 p.2) terms).has value field = true ↔
      terms.has value field = true ∨ (field, value) ∈ ps := by
  induction ps generalizing terms with
  | nil => simp
  | cons p ps ih =>
    rw [List.foldl_cons, ih, has_add, List.mem_cons, or_assoc]
    simp [Prod.ext_iff]

theorem isProper_foldl_add (ps : List (String × String)) (h : terms.IsProper) :
    (ps.foldl (fun terms p => terms.add p.1 p.2) terms).IsProper := by
  induction ps generalizing terms with
  | nil => exact h
  | cons p ps ih => exact ih (isProper_add h p.1 p.2)

theorem mem_pairs_iff : (field, value) ∈ terms.pairs ↔ terms.has value field = true := by
  rw [has_iff, pairs, List.mem_flatMap]
  constructor
  · rintro ⟨⟨v, fields⟩, he, hm⟩
    obtain ⟨f, hf, heq⟩ := List.mem_map.mp hm
    obtain ⟨rfl, rfl⟩ := Prod.mk.inj heq
    exact ⟨fields, SortedMap.get?_eq_some_iff.mpr he, hf⟩
  · rintro ⟨fields, hv, hf⟩
    exact ⟨(value, fields), SortedMap.get?_eq_some_iff.mp hv, List.mem_map.mpr ⟨field, hf, rfl⟩⟩

theorem text_mem_wanted (h : terms.has value field = true) :
    (Query.equals field value).text ∈ terms.wanted :=
  SortedSet.mem_ofList.mpr (List.mem_map.mpr ⟨_, mem_pairs_iff.mpr h, rfl⟩)

end Terms

namespace Query

variable {indexed : SortedSet String} {field value : String}

theorem has_indexedTerms (q : Query) :
    (q.indexedTerms indexed).has value field = Bool.true ↔
      (field, value) ∈ q.indexedPairs indexed := by
  rw [indexedTerms, Terms.has_foldl_add]
  exact or_iff_right Bool.false_ne_true

theorem isProper_indexedTerms (q : Query) : (q.indexedTerms indexed).IsProper :=
  Terms.isProper_foldl_add _ fun _ _ h => by cases h

theorem isEmpty_indexedTerms {q : Query} (h : q.allIndexed indexed = Bool.true) :
    (q.indexedTerms indexed).isEmpty = Bool.false := by
  obtain ⟨field, value, hp⟩ := exists_of_overTerms (overTerms_indexedPairs q h)
  obtain ⟨fields, hget, -⟩ := Terms.has_iff.mp ((has_indexedTerms q).mpr hp)
  rw [SortedMap.isEmpty, ← Bool.not_eq_true, List.isEmpty_iff]
  exact List.ne_nil_of_mem (SortedMap.get?_eq_some_iff.mp hget)

theorem overTerms_indexedTerms {q : Query} (h : q.allIndexed indexed = Bool.true) :
    q.OverTerms fun field value => (q.indexedTerms indexed).has value field = Bool.true := by
  simpa only [has_indexedTerms] using overTerms_indexedPairs q h

/-- A conjunction below a disjunction below a conjunction. -/
def nested : Query :=
  .and [.equals "A" "1", .or [.equals "B" "2", .and [.equals "A" "1", .equals "B" "3"]]]

end Query

end ShardedSearch
