import ShardedSearch.Candidate.Evidence
import ShardedSearch.Proofs.Order.Collections
import ShardedSearch.Proofs.Query.Meaning

/-! # Laws of evidence

Combined evidence is flat and means the conjunction or disjunction of its parts. A record
that no part rules out is not ruled out by the whole. Combining once more with the same
deferred clauses changes nothing.
-/

namespace ShardedSearch

namespace Matches

def admits : Matches → String → Prop
  | unknown, _ => True
  | exact uids, uid => uid ∈ uids

variable {uid : String} {m n : Matches}

theorem isEmpty_of_admits (h : m.admits uid) : m.isEmpty = false := by
  cases m with
  | unknown => rfl
  | exact uids =>
    rw [isEmpty, ← Bool.not_eq_true, SortedSet.isEmpty_iff]
    exact fun hn => hn uid h

theorem admits_combine_inter (hm : m.admits uid) (hn : n.admits uid) :
    (combine SortedSet.inter m n).admits uid := by
  cases m <;> cases n <;> first | trivial | exact SortedSet.mem_inter.mpr ⟨hm, hn⟩

theorem admits_combine_union (h : m.admits uid ∨ n.admits uid) :
    (combine SortedSet.union m n).admits uid := by
  cases m <;> cases n <;> first | trivial | exact SortedSet.mem_union.mpr h

theorem admits_foldl_inter {ms : List Matches} (hm : m.admits uid)
    (hms : ∀ n ∈ ms, n.admits uid) : (ms.foldl (combine SortedSet.inter) m).admits uid := by
  induction ms generalizing m with
  | nil => exact hm
  | cons n ms ih =>
    have hn := admits_combine_inter hm (hms n List.mem_cons_self)
    exact ih hn fun k hk => hms k (List.mem_cons_of_mem n hk)

theorem admits_foldl_union {ms : List Matches} (h : ∃ n ∈ m :: ms, n.admits uid) :
    (ms.foldl (combine SortedSet.union) m).admits uid := by
  induction ms generalizing m with
  | nil =>
    obtain ⟨n, hn, h⟩ := h
    obtain rfl := List.mem_singleton.mp hn
    exact h
  | cons k ms ih =>
    obtain ⟨n, hn, h⟩ := h
    rw [List.foldl_cons]
    rcases List.mem_cons.mp hn with rfl | hn
    · exact ih ⟨_, List.mem_cons_self, admits_combine_union (.inl h)⟩
    · rcases List.mem_cons.mp hn with rfl | hn
      · exact ih ⟨_, List.mem_cons_self, admits_combine_union (.inr h)⟩
      · exact ih ⟨n, List.mem_cons_of_mem _ hn, h⟩

theorem admits_combineAll_inter {ms : List Matches} (h : ∀ n ∈ ms, n.admits uid) :
    (combineAll SortedSet.inter ms).admits uid := by
  cases ms with
  | nil => trivial
  | cons m ms =>
    exact admits_foldl_inter (h m List.mem_cons_self) fun n hn => h n (List.mem_cons_of_mem m hn)

theorem admits_combineAll_union {ms : List Matches} (h : ∃ n ∈ ms, n.admits uid) :
    (combineAll SortedSet.union ms).admits uid := by
  cases ms with
  | nil => trivial
  | cons m ms => exact admits_foldl_union h

end Matches

namespace Counts

@[simp]
theorem merge_empty_left (c : Counts) : empty.merge c = c := by
  cases c
  simp [merge, empty]

end Counts

namespace Evidence

/-! ### Queries without repeats -/

theorem mem_distinct {q : Query} {qs : List Query} : q ∈ distinct qs ↔ q ∈ qs := by
  induction qs with
  | nil => simp [distinct]
  | cons c cs ih =>
    by_cases h : q = c
    · simp [distinct, h]
    · simp [distinct, h, ih]

theorem nodup_distinct (qs : List Query) : (distinct qs).Nodup := by
  induction qs with
  | nil => exact List.nodup_nil
  | cons c cs ih =>
    rw [distinct, List.nodup_cons]
    exact ⟨by simp, ih.sublist List.filter_sublist⟩

theorem distinct_of_nodup {qs : List Query} (h : qs.Nodup) : distinct qs = qs := by
  induction qs with
  | nil => rfl
  | cons c cs ih =>
    obtain ⟨hc, hcs⟩ := List.nodup_cons.mp h
    rw [distinct, ih hcs, List.filter_eq_self.mpr]
    intro q hq
    simpa using fun he : q = c => hc (he ▸ hq)

theorem distinct_append (xs ys : List Query) :
    distinct (xs ++ ys) = distinct xs ++ (distinct ys).filter (decide <| · ∉ xs) := by
  induction xs with
  | nil => simp [distinct]
  | cons x xs ih =>
    rw [List.cons_append, distinct, ih, distinct, List.filter_append, List.filter_filter]
    congr 2
    apply List.filter_congr
    intro q _
    simp [not_or]

theorem distinct_distinct_append (xs ys : List Query) :
    distinct (distinct xs ++ ys) = distinct (xs ++ ys) := by
  rw [distinct_append, distinct_append xs, distinct_of_nodup (nodup_distinct xs)]
  simp only [mem_distinct]

theorem distinct_append_of_subset {xs ys : List Query} (h : ∀ y ∈ ys, y ∈ xs) :
    distinct (xs ++ ys) = distinct xs := by
  rw [distinct_append, List.filter_eq_nil_iff.mpr, List.append_nil]
  intro y hy
  simpa using h y (mem_distinct.mp hy)

theorem all_distinct (p : Query → Bool) (qs : List Query) : (distinct qs).all p = qs.all p := by
  rw [Bool.eq_iff_iff, List.all_eq_true, List.all_eq_true]
  simp only [mem_distinct]

theorem any_distinct (p : Query → Bool) (qs : List Query) : (distinct qs).any p = qs.any p := by
  rw [Bool.eq_iff_iff, List.any_eq_true, List.any_eq_true]
  simp only [mem_distinct]

/-! ### Combined evidence -/

variable {f : SortedSet String → SortedSet String → SortedSet String}
variable {build : List Query → Query} {parts : Query → List Query}
variable {es : List Evidence} {ds : List Query} {truth : Query → Bool}

theorem flat_parts_combine (j : Query.Joins build parts) (he : ∀ e ∈ es, e.query.IsFlat)
    (hd : ∀ d ∈ ds, d.IsFlat) :
    ∀ c ∈ distinct ((es.map (·.query) ++ ds).flatMap parts), c.IsFlat ∧ parts c = [c] := by
  intro c hc
  refine j.flat_flatMap (fun q hq => ?_) c (mem_distinct.mp hc)
  rcases List.mem_append.mp hq with hq | hq
  · obtain ⟨e, hm, rfl⟩ := List.mem_map.mp hq
    exact he e hm
  · exact hd q hq

theorem isFlat_combine (j : Query.Joins build parts) (he : ∀ e ∈ es, e.query.IsFlat)
    (hd : ∀ d ∈ ds, d.IsFlat) : (combine f build parts es ds).query.IsFlat := by
  have h := flat_parts_combine j he hd
  exact j.isFlat_join (fun c hc => (h c hc).2) fun c hc => (h c hc).1

theorem parts_combine (j : Query.Joins build parts) (he : ∀ e ∈ es, e.query.IsFlat)
    (hd : ∀ d ∈ ds, d.IsFlat) : parts (combine f build parts es ds).query =
      distinct ((es.map (·.query) ++ ds).flatMap parts) :=
  j.parts_join fun c hc => (flat_parts_combine j he hd c hc).2

/-- Deferred clauses take part once, however often they are joined. -/
theorem combine_combine (j : Query.Joins build parts) (he : ∀ e ∈ es, e.query.IsFlat)
    (hd : ∀ d ∈ ds, d.IsFlat) (hn : ds ≠ []) :
    combine f build parts [combine f build parts es ds] ds = combine f build parts es ds := by
  have hq : distinct (([(combine f build parts es ds).query] ++ ds).flatMap parts) =
      distinct ((es.map (·.query) ++ ds).flatMap parts) := by
    rw [List.flatMap_append, List.flatMap_cons, List.flatMap_nil, List.append_nil,
      parts_combine j he hd, distinct_distinct_append, distinct_append_of_subset]
    intro c hc
    rw [List.flatMap_append]
    exact List.mem_append_right _ hc
  have hf : ds.isEmpty = false := by simpa using hn
  rw [combine]
  simp only [List.map_cons, List.map_nil, hq]
  simp [combine, hf]

theorem isFlat_conj (he : ∀ e ∈ es, e.query.IsFlat) (hd : ∀ d ∈ ds, d.IsFlat) :
    (conj es ds).query.IsFlat := isFlat_combine Query.joins_and he hd

theorem isFlat_disj (he : ∀ e ∈ es, e.query.IsFlat) (hd : ∀ d ∈ ds, d.IsFlat) :
    (disj es ds).query.IsFlat := isFlat_combine Query.joins_or he hd

theorem disj_disj (he : ∀ e ∈ es, e.query.IsFlat) (hd : ∀ d ∈ ds, d.IsFlat) (hn : ds ≠ []) :
    disj [disj es ds] ds = disj es ds := combine_combine Query.joins_or he hd hn

/-- Whether queries of a kind stay of that kind when evidence is combined. -/
class Keeps (kind : Query → Prop) : Prop where
  conj : ∀ {es : List Evidence} {ds : List Query}, (∀ e ∈ es, kind e.query) →
    (∀ d ∈ ds, kind d) → kind (conj es ds).query
  disj : ∀ {es : List Evidence} {ds : List Query}, (∀ e ∈ es, kind e.query) →
    (∀ d ∈ ds, kind d) → kind (disj es ds).query

instance keeps_isFlat : Keeps Query.IsFlat := ⟨isFlat_conj, isFlat_disj⟩

instance keeps_true : Keeps fun _ => True := ⟨fun _ _ => trivial, fun _ _ => trivial⟩

theorem holds_conj :
    (conj es ds).query.holds truth =
      (es.all (·.query.holds truth) && ds.all (Query.holds truth)) := by
  rw [conj, combine, Query.holds_join_and, all_distinct, Query.all_flatMap_conjuncts,
    List.all_append, List.all_map]
  rfl

theorem holds_disj :
    (disj es ds).query.holds truth =
      (es.any (·.query.holds truth) || ds.any (Query.holds truth)) := by
  rw [disj, combine, Query.holds_join_or, any_distinct, Query.any_flatMap_disjuncts,
    List.any_append, List.any_map]
  rfl

theorem admits_conj {uid : String} (h : ∀ e ∈ es, e.found.admits uid) :
    (conj es ds).found.admits uid := by
  unfold conj combine
  split
  · apply Matches.admits_combineAll_inter
    intro m hm
    obtain ⟨e, he, rfl⟩ := List.mem_map.mp hm
    exact h e he
  · trivial

theorem admits_disj {uid : String} (h : (∃ e ∈ es, e.found.admits uid) ∨ ds ≠ []) :
    (disj es ds).found.admits uid := by
  unfold disj combine
  split
  · next hd =>
    rcases h with ⟨e, he, h⟩ | h
    · exact Matches.admits_combineAll_union ⟨_, List.mem_map_of_mem he, h⟩
    · exact absurd (List.isEmpty_iff.mp hd) h
  · trivial

/-! ### Pointwise joins -/

/-- Evidence of a disjunction whose clauses may have none; none if no clause has any. -/
def disj? (es : List (Option Evidence)) (deferred : List Query) : Option Evidence :=
  match es.filterMap (·) with
  | [] => none
  | es => some (disj es deferred)

/-- Evidence of a conjunction whose clauses may have none; none if a clause has none or the
records are known and none is left. -/
def conj? (es : List (Option Evidence)) (answers : List Evidence) (deferred : List Query) :
    Option Evidence :=
  if ∀ e ∈ es, e.isSome = true then
    (some (conj (es.filterMap (·) ++ answers) deferred)).filter (!·.isEmpty)
  else none

theorem disj?_eq_none_iff {os : List (Option Evidence)} :
    disj? os ds = none ↔ ∀ o ∈ os, o = none := by
  have hn : os.filterMap (·) = [] ↔ ∀ o ∈ os, o = none := List.filterMap_eq_nil_iff
  rw [← hn]
  unfold disj?
  split
  · next h => simp only [h]
  · next h => simpa using h

theorem disj?_eq_some {os : List (Option Evidence)} {e : Evidence} (h : disj? os ds = some e) :
    e = disj (os.filterMap (·)) ds := by
  unfold disj? at h
  split at h
  · simp at h
  · exact (Option.some.inj h).symm

theorem conj?_eq_some {os : List (Option Evidence)} {e : Evidence}
    (h : conj? os es ds = some e) :
    (∀ o ∈ os, o.isSome = true) ∧ e = conj (os.filterMap (·) ++ es) ds ∧ e.isEmpty = false := by
  unfold conj? at h
  split at h
  · next hall =>
    obtain ⟨he, hp⟩ := Option.filter_eq_some_iff.mp h
    exact ⟨hall, (Option.some.inj he).symm, by simpa using hp⟩
  · simp at h

end Evidence

end ShardedSearch
