import ShardedSearch.Proofs.Candidate.Agreement
import ShardedSearch.Proofs.Query.Flattening

/-! # Evidence joined in groups

Evidence may be joined all at once or group by group, with the same result to the last clause.
The order of the evidence decides the order of clauses and nothing else. The query of a join is
flat, says no clause twice, and means what the given queries mean together.
-/

namespace ShardedSearch

namespace Matches

variable {f : SortedSet String → SortedSet String → SortedSet String} [Std.Associative f]
variable {mss : List (List Matches)}

theorem foldl_combineAll (h : ∀ ms ∈ mss, ms ≠ []) (m : Matches) :
    (mss.map (combineAll f)).foldl (combine f) m = mss.flatten.foldl (combine f) m := by
  induction mss generalizing m with
  | nil => rfl
  | cons ms mss ih =>
    obtain ⟨n, ns, rfl⟩ := List.exists_cons_of_ne_nil (h ms List.mem_cons_self)
    have hgroup : combine f m (combineAll f (n :: ns)) = (n :: ns).foldl (combine f) m :=
      List.foldl_assoc.symm
    rw [List.map_cons, List.foldl_cons, hgroup, ih fun ns hns => h ns (List.mem_cons_of_mem _ hns),
      List.flatten_cons, List.foldl_append]

theorem combineAll_flatten (h : ∀ ms ∈ mss, ms ≠ []) :
    combineAll f (mss.map (combineAll f)) = combineAll f mss.flatten := by
  cases mss with
  | nil => rfl
  | cons ms mss =>
    obtain ⟨m, ms, rfl⟩ := List.exists_cons_of_ne_nil (h ms List.mem_cons_self)
    have hrest := foldl_combineAll (f := f) fun ns hns => h ns (List.mem_cons_of_mem _ hns)
    rw [List.map_cons, combineAll, hrest, List.flatten_cons, List.cons_append, combineAll,
      combineAll, List.foldl_append]

end Matches

namespace Counts

@[simp]
theorem merge_empty_right (c : Counts) : c.merge empty = c :=
  (Std.Commutative.comm c empty).trans (merge_empty_left c)

theorem foldl_merge_flatten (css : List (List Counts)) (c : Counts) :
    (css.map (·.foldl merge empty)).foldl merge c = css.flatten.foldl merge c := by
  induction css generalizing c with
  | nil => rfl
  | cons cs css ih =>
    have hgroup : c.merge (cs.foldl merge empty) = cs.foldl merge c := by
      have hassoc : cs.foldl merge (c.merge empty) = c.merge (cs.foldl merge empty) :=
        List.foldl_assoc
      rw [← hassoc, merge_empty_right]
    rw [List.map_cons, List.foldl_cons, hgroup, ih, List.flatten_cons, List.foldl_append]

end Counts

namespace Evidence

theorem distinct_flatMap_distinct {α : Type} (qs : α → List Query) (as : List α) :
    distinct (as.flatMap fun a => distinct (qs a)) = distinct (as.flatMap qs) := by
  induction as with
  | nil => rfl
  | cons a as ih =>
    rw [List.flatMap_cons, distinct_distinct_append, distinct_append, ih, ← distinct_append,
      List.flatMap_cons]

section Combine

variable {f : SortedSet String → SortedSet String → SortedSet String}
variable {build : List Query → Query} {parts : Query → List Query}
variable {groups : List (List Evidence)} {es : List Evidence} {ds cs : List Query}

theorem combine_groups [Std.Associative f] (j : Query.Joins build parts)
    (hne : ∀ g ∈ groups, g ≠ []) (hflat : ∀ g ∈ groups, ∀ e ∈ g, e.query.IsFlat) :
    combine f build parts (groups.map (combine f build parts · [])) [] =
      combine f build parts groups.flatten [] := by
  have hfound : Matches.combineAll f
      ((groups.map (combine f build parts · [])).map (·.found)) =
        Matches.combineAll f (groups.flatten.map (·.found)) := by
    have hgroups : ∀ ms ∈ groups.map (·.map (·.found)), ms ≠ [] := by simpa using hne
    rw [List.map_flatten, ← Matches.combineAll_flatten hgroups, List.map_map, List.map_map]
    rfl
  have hquery : distinct
      (((groups.map (combine f build parts · [])).map query ++ []).flatMap parts) =
        distinct ((groups.flatten.map query ++ []).flatMap parts) := by
    have hclauses : ∀ es : List Evidence, (es.map query ++ []).flatMap parts =
        es.flatMap fun e => parts e.query := by
      intro es
      rw [List.append_nil, List.flatMap_map]
    have hparts : ∀ g ∈ groups, parts (combine f build parts g []).query =
        distinct (g.flatMap fun e => parts e.query) := by
      intro g hg
      rw [parts_combine j (hflat g hg) (by simp), hclauses]
    rw [hclauses, hclauses, List.flatMap_map, List.flatMap_congr hparts,
      distinct_flatMap_distinct, List.flatten_eq_flatMap, List.flatMap_assoc]
    rfl
  have hcounts : ((groups.map (combine f build parts · [])).map (·.counts)).foldl
      Counts.merge .empty = (groups.flatten.map (·.counts)).foldl Counts.merge .empty := by
    rw [List.map_flatten, ← Counts.foldl_merge_flatten, List.map_map, List.map_map]
    rfl
  rw [combine, combine, hfound, hquery, hcounts]

/-- A flat join of flat queries has no clause of its own kind, and none twice. -/
theorem clauses_combine (j : Query.Joins build parts)
    (hkind : ∀ c, parts c = [c] → ∀ bs, c ≠ build bs) (he : ∀ e ∈ es, e.query.IsFlat)
    (hd : ∀ d ∈ ds, d.IsFlat) (h : (combine f build parts es ds).query = build cs) :
    cs.Nodup ∧ ∀ bs, build bs ∉ cs := by
  have hcs := parts_combine (f := f) j he hd
  rw [h, j.parts_build] at hcs
  rw [hcs]
  exact ⟨nodup_distinct _, fun bs hb =>
    hkind _ (flat_parts_combine j he hd _ hb).2 bs rfl⟩

end Combine

/-- A way to join evidence, with the kind of join of its query and the connective of that kind. -/
structure JoinsBy (joined : List Evidence → List Query → Evidence) (build : List Query → Query)
    (connective : List Query → (Query → Bool) → Bool) : Prop where
  /-- Groups of evidence join to the same as all their members. -/
  grouped : ∀ groups : List (List Evidence), (∀ g ∈ groups, g ≠ []) →
    (∀ g ∈ groups, ∀ e ∈ g, e.query.IsFlat) →
      joined (groups.map (joined · [])) [] = joined groups.flatten []
  /-- Neither records nor counts depend on the order. -/
  reordered : ∀ es fs ds, es.Perm fs →
    (joined es ds).found = (joined fs ds).found ∧ (joined es ds).counts = (joined fs ds).counts
  meaning : ∀ es ds truth, (joined es ds).query.holds truth =
    connective (es.map (·.query) ++ ds) (Query.holds truth)
  /-- Of flat queries, a join has no clause of its own kind, and none twice. -/
  clauses : ∀ es ds cs, (∀ e ∈ es, e.query.IsFlat) → (∀ d ∈ ds, d.IsFlat) →
    (joined es ds).query = build cs → cs.Nodup ∧ ∀ bs, build bs ∉ cs

theorem agreeing_of_perm {es fs : List Evidence} (h : es.Perm fs) : Matched Agree es fs :=
  (Matched.refl Agree.refl _).perm_right h

theorem joinsBy_conj : JoinsBy conj .and List.all where
  grouped _ hne hflat := combine_groups Query.joins_and hne hflat
  reordered es fs ds h := by
    have hagree := agree_conj (agreeing_of_perm h) (Matched.refl Query.Equivalent.refl ds)
    exact ⟨hagree.found, hagree.counts⟩
  meaning es ds truth := by
    rw [holds_conj, List.all_append, List.all_map]
    rfl
  clauses _ _ _ he hd h :=
    clauses_combine Query.joins_and (fun _ => Query.and_ne_of_conjuncts_eq) he hd h

theorem joinsBy_disj : JoinsBy disj .or List.any where
  grouped _ hne hflat := combine_groups Query.joins_or hne hflat
  reordered es fs ds h := by
    have hagree := agree_disj (agreeing_of_perm h) (Matched.refl Query.Equivalent.refl ds)
    exact ⟨hagree.found, hagree.counts⟩
  meaning es ds truth := by
    rw [holds_disj, List.any_append, List.any_map]
    rfl
  clauses _ _ _ he hd h :=
    clauses_combine Query.joins_or (fun _ => Query.or_ne_of_disjuncts_eq) he hd h

theorem joinsBy_conj_and_disj : JoinsBy conj .and List.all ∧ JoinsBy disj .or List.any :=
  ⟨joinsBy_conj, joinsBy_disj⟩

end Evidence

end ShardedSearch
