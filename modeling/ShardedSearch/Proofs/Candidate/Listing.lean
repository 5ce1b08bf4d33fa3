import ShardedSearch.Proofs.Candidate.Evidence

/-! # Listings of candidates

A list of candidates in strictly ascending shard order is a partial function from shards
to evidence. Two listings that agree at every shard are equal.
-/

namespace ShardedSearch.Candidate

abbrev Ascending (cs : List Candidate) : Prop := cs.Pairwise (·.shard < ·.shard)

def evidenceAt (cs : List Candidate) (id : ShardId) : Option Evidence :=
  (cs.find? (·.shard = id)).map (·.evidence)

def onward (id : ShardId) (cs : List Candidate) : List Candidate :=
  cs.filter (decide <| ¬ ·.shard < id)

def beyond (id : ShardId) (cs : List Candidate) : List Candidate :=
  cs.filter (decide <| id < ·.shard)

variable {c : Candidate} {cs ds : List Candidate} {id j : ShardId} {e : Evidence}

@[simp]
theorem evidenceAt_nil : evidenceAt [] id = none := rfl

theorem evidenceAt_cons :
    evidenceAt (c :: cs) id = if c.shard = id then some c.evidence else evidenceAt cs id := by
  unfold evidenceAt
  split
  · next h => simp [h]
  · next h => simp [h]

theorem evidenceAt_eq_some_iff (h : Ascending cs) :
    evidenceAt cs id = some e ↔ ⟨id, e⟩ ∈ cs := by
  rw [evidenceAt, Option.map_eq_some_iff]
  constructor
  · rintro ⟨c, hf, rfl⟩
    obtain ⟨hm, rfl⟩ := (find?_eq_some_iff_of_ascending h).mp hf
    exact hm
  · intro hm
    exact ⟨_, (find?_eq_some_iff_of_ascending h).mpr ⟨hm, rfl⟩, rfl⟩

theorem evidenceAt_eq_none_iff : evidenceAt cs id = none ↔ ∀ c ∈ cs, c.shard ≠ id := by
  simp [evidenceAt]

theorem isSome_evidenceAt_iff : (evidenceAt cs id).isSome = true ↔ ∃ c ∈ cs, c.shard = id := by
  rw [Option.isSome_iff_ne_none, ne_eq, evidenceAt_eq_none_iff]
  simp

theorem ext_evidenceAt (hc : Ascending cs) (hd : Ascending ds)
    (h : ∀ id, evidenceAt cs id = evidenceAt ds id) : cs = ds :=
  eq_of_mem_iff_of_ascending hc hd fun c => by
    rw [← evidenceAt_eq_some_iff hc, ← evidenceAt_eq_some_iff hd, h]

theorem evidenceAt_of_lt (h : Ascending (c :: cs)) (hj : ¬ c.shard < j) :
    evidenceAt cs j = none := by
  rw [evidenceAt_eq_none_iff]
  intro d hd he
  exact hj (he ▸ (List.pairwise_cons.mp h).1 d hd)

theorem ascending_onward (h : Ascending cs) : Ascending (onward id cs) :=
  h.sublist List.filter_sublist

theorem mem_onward : c ∈ onward id cs ↔ c ∈ cs ∧ ¬ c.shard < id := by
  simp [onward]

theorem evidenceAt_onward :
    evidenceAt (onward id cs) j = if j < id then none else evidenceAt cs j := by
  induction cs with
  | nil => simp [onward]
  | cons c cs ih =>
    rw [onward, List.filter_cons]
    by_cases hc : c.shard < id
    · have hne : ¬ j < id → ¬ c.shard = j := fun hj he => hj (he ▸ hc)
      rw [if_neg (by simpa using hc)]
      apply ih.trans
      split
      · rfl
      · next hj => rw [evidenceAt_cons, if_neg (hne hj)]
    · have hne : j < id → ¬ c.shard = j := fun hj he => hc (he ▸ hj)
      rw [if_pos (by simpa using hc), evidenceAt_cons, evidenceAt_cons]
      split
      · next he => rw [if_neg fun hj => hne hj he]
      · exact ih

theorem length_onward_le : (onward id cs).length ≤ cs.length := List.length_filter_le ..

theorem onward_of_not_lt (h : Ascending (c :: cs)) (hc : ¬ c.shard < id) :
    onward id (c :: cs) = c :: cs := by
  apply List.filter_eq_self.mpr
  intro d hd
  simp only [decide_eq_true_eq]
  intro hlt
  rcases List.mem_cons.mp hd with rfl | hd
  · exact hc hlt
  · exact hc (KeyOrder.trans ((List.pairwise_cons.mp h).1 d hd) hlt)

theorem onward_cons_of_lt (hc : c.shard < id) : onward id (c :: cs) = onward id cs :=
  List.filter_cons_of_neg fun h => of_decide_eq_true h hc

theorem evidenceAt_beyond :
    evidenceAt (beyond id cs) j = if id < j then evidenceAt cs j else none := by
  induction cs with
  | nil => simp [beyond]
  | cons c cs ih =>
    rw [beyond, List.filter_cons]
    by_cases hc : id < c.shard
    · have hne : ¬ id < j → ¬ c.shard = j := fun hj he => hj (he ▸ hc)
      rw [if_pos (by simpa using hc), evidenceAt_cons, evidenceAt_cons]
      split
      · next he => rw [if_pos (he ▸ hc)]
      · exact ih
    · have hne : id < j → ¬ c.shard = j := fun hj he => hc (he ▸ hj)
      rw [if_neg (by simpa using hc)]
      apply ih.trans
      split
      · next hj => rw [evidenceAt_cons, if_neg (hne hj)]
      · rfl

theorem beyond_of_lt (h : Ascending (c :: cs)) (hc : id < c.shard) :
    beyond id (c :: cs) = c :: cs := by
  apply List.filter_eq_self.mpr
  intro d hd
  simp only [decide_eq_true_eq]
  rcases List.mem_cons.mp hd with rfl | hd
  · exact hc
  · exact KeyOrder.trans hc ((List.pairwise_cons.mp h).1 d hd)

theorem beyond_cons_self (h : Ascending (c :: cs)) : beyond c.shard (c :: cs) = cs := by
  rw [beyond, List.filter_cons, if_neg (by simp), List.filter_eq_self]
  intro d hd
  simpa using (List.pairwise_cons.mp h).1 d hd

theorem length_beyond_le : (beyond id cs).length ≤ cs.length := List.length_filter_le ..

theorem exists_ascending (ids : List ShardId) (f : ShardId → Option Evidence)
    (h : ∀ id e, f id = some e → id ∈ ids) :
    ∃ cs, Ascending cs ∧ ∀ id, evidenceAt cs id = f id := by
  let cs := (SortedSet.ofList ids).toList.filterMap fun id => (f id).map (Candidate.mk id)
  have hcs : Ascending cs := by
    refine List.pairwise_filterMap.mpr ((SortedSet.ofList ids).ascending.imp ?_)
    rintro a b hlt c hc d hd
    obtain ⟨e, -, rfl⟩ := Option.map_eq_some_iff.mp hc
    obtain ⟨e', -, rfl⟩ := Option.map_eq_some_iff.mp hd
    exact hlt
  have hm : ∀ {id e}, ⟨id, e⟩ ∈ cs ↔ f id = some e := by
    intro id e
    rw [List.mem_filterMap]
    constructor
    · rintro ⟨a, -, ha⟩
      obtain ⟨e', he, hc⟩ := Option.map_eq_some_iff.mp ha
      obtain ⟨rfl, rfl⟩ := Candidate.mk.inj hc
      exact he
    · intro he
      exact ⟨id, SortedSet.mem_ofList.mpr (h id e he), by rw [he]; rfl⟩
  refine ⟨cs, hcs, fun id => Option.ext fun e => ?_⟩
  rw [evidenceAt_eq_some_iff hcs, hm]

end ShardedSearch.Candidate
