import ShardedSearch.Proofs.Merge.Reading
import ShardedSearch.Proofs.Plan.Document

/-! # Sound readings

A reading is sound for a query if it loses no document that satisfies it, and if what is
left to evaluate in a shard means the same there as the query. Joins of sound readings are
sound for joins of queries.
-/

namespace ShardedSearch.Merge

/-- Documents, the truth of leaves for each of them and the shards that the index covers. -/
structure World where
  docs : Document → Prop
  truth : Document → Query → Bool
  shards : ShardId → Prop

namespace World

variable (w : World)

def Has (d : Document) : Prop := w.docs d ∧ w.shards d.shard

def holds (q : Query) (d : Document) : Bool := q.holds (w.truth d)

def Equivalent (p q : Query) : Prop := ∀ d, w.Has d → w.holds p d = w.holds q d

/-- Evidence of a query: it keeps every document that satisfies the query, and means the query
wherever there is any. -/
structure Keeps (q : Query) (f : ShardId → Option Evidence) : Prop where
  known : ∀ id e, f id = some e → w.shards id
  complete : ∀ d, w.Has d → w.holds q d = true → ∃ e, f d.shard = some e ∧ e.found.admits d.uid
  faithful : ∀ d, w.Has d → ∀ e, f d.shard = some e → w.holds e.query d = w.holds q d

/-- Answers for every shard that mean a query there and rule out no document. -/
structure Answered (q : Query) (g : ShardId → Evidence) : Prop where
  admits : ∀ d, w.Has d → (g d.shard).found.admits d.uid
  faithful : ∀ d, w.Has d → w.holds (g d.shard).query d = w.holds q d

end World

namespace Reading

def IsSound (w : World) (q : Query) : Reading → Prop
  | absent => ∀ d, w.Has d → w.holds q d = false
  | delayed p => w.Equivalent p q
  | present f => (∃ id, w.shards id) ∧ w.Keeps q f
  | mixed p g => (∃ id, w.shards id) ∧ w.Equivalent p q ∧ w.Answered q g

variable {w : World} {qs : List Query} {rs : List Reading} {d : Document}

abbrev AllSound (w : World) (qs : List Query) (rs : List Reading) : Prop :=
  List.Forall₂ (fun q r => IsSound w q r) qs rs

theorem exists_shard_of_evidence? (h : AllSound w qs rs) {f : ShardId → Option Evidence}
    (hf : f ∈ rs.filterMap evidence?) : (∃ id, w.shards id) ∧ ∃ q ∈ qs, w.Keeps q f := by
  induction h with
  | nil => simp at hf
  | @cons q r qs rs h _ ih =>
    have htail : f ∈ rs.filterMap evidence? →
        (∃ id, w.shards id) ∧ ∃ p ∈ q :: qs, w.Keeps p f := by
      intro hf
      obtain ⟨hid, p, hp, hk⟩ := ih hf
      exact ⟨hid, p, List.mem_cons_of_mem q hp, hk⟩
    cases r with
    | present g =>
      rcases List.mem_cons.mp hf with rfl | hf
      · exact ⟨h.1, q, List.mem_cons_self, h.2⟩
      · exact htail hf
    | _ => exact htail hf

theorem exists_shard_of_answers? (h : AllSound w qs rs) {g : ShardId → Evidence}
    (hg : g ∈ rs.filterMap answers?) : ∃ id, w.shards id := by
  induction h with
  | nil => simp at hg
  | @cons q r qs rs h _ ih =>
    cases r with
    | mixed => exact h.1
    | _ => exact ih hg

theorem exists_false_of_absent (h : AllSound w qs rs) (ha : ∃ r ∈ rs, r.context = .absent)
    (hd : w.Has d) : ∃ q ∈ qs, w.holds q d = false := by
  induction h with
  | nil => simp at ha
  | @cons q r qs rs h _ ih =>
    obtain ⟨r', hr, hctx⟩ := ha
    rcases List.mem_cons.mp hr with rfl | hr
    · cases r' with
      | absent => exact ⟨q, List.mem_cons_self, h d hd⟩
      | _ => simp [context] at hctx
    · obtain ⟨p, hp, hf⟩ := ih ⟨r', hr, hctx⟩
      exact ⟨p, List.mem_cons_of_mem q hp, hf⟩

theorem eq_nil_of_parts (h : AllSound w qs rs) (hn : ∀ r ∈ rs, r.context ≠ .absent)
    (hfs : rs.filterMap evidence? = []) (hgs : rs.filterMap answers? = [])
    (hds : rs.filterMap delayed? = []) : qs = [] := by
  cases h with
  | nil => rfl
  | @cons q r =>
    cases r with
    | absent => exact absurd rfl (hn _ List.mem_cons_self)
    | delayed => cases hds
    | present => cases hfs
    | mixed => cases hgs

/-! ### Disjunctions -/

theorem any_holds_eq (h : AllSound w qs rs) (hd : w.Has d) :
    qs.any (w.holds · d) =
      (((rs.filterMap evidence?).filterMap (· d.shard)).any (w.holds ·.query d) ||
        (rs.filterMap deferred?).any (w.holds · d)) := by
  induction h with
  | nil => rfl
  | @cons q r qs rs h _ ih =>
    rw [List.any_cons, ih]
    cases r with
    | absent =>
      rw [h d hd, Bool.false_or]
      rfl
    | delayed p =>
      rw [← h d hd, Bool.or_left_comm]
      rfl
    | mixed p g =>
      rw [← h.2.1 d hd, Bool.or_left_comm]
      rfl
    | present f =>
      change _ = (List.any ((f :: rs.filterMap evidence?).filterMap (· d.shard)) _ || _)
      rw [List.filterMap_cons]
      cases hf : f d.shard with
      | none =>
        have hq : w.holds q d = false := by
          rw [← Bool.not_eq_true]
          intro hq
          obtain ⟨e, he, -⟩ := h.2.complete d hd hq
          simp [hf] at he
        rw [hq, Bool.false_or]
        rfl
      | some e =>
        rw [List.any_cons, h.2.faithful d hd e hf, Bool.or_assoc]
        rfl

theorem any_admits (h : AllSound w qs rs) (hd : w.Has d) (hq : qs.any (w.holds · d) = true) :
    (∃ e ∈ (rs.filterMap evidence?).filterMap (· d.shard), e.found.admits d.uid) ∨
      rs.filterMap deferred? ≠ [] := by
  induction h with
  | nil => simp at hq
  | @cons q r qs rs h _ ih =>
    rw [List.any_cons, Bool.or_eq_true] at hq
    cases r with
    | absent =>
      rw [h d hd] at hq
      exact ih (hq.resolve_left Bool.false_ne_true)
    | delayed p => exact .inr (List.cons_ne_nil _ _)
    | mixed p g => exact .inr (List.cons_ne_nil _ _)
    | present f =>
      rcases hq with hq | hq
      · obtain ⟨e, he, ha⟩ := h.2.complete d hd hq
        exact .inl ⟨e, List.mem_filterMap.mpr ⟨f, List.mem_cons_self, he⟩, ha⟩
      · refine (ih hq).imp_left fun ⟨e, he, ha⟩ => ⟨e, ?_, ha⟩
        obtain ⟨f', hf', he⟩ := List.mem_filterMap.mp he
        exact List.mem_filterMap.mpr ⟨f', List.mem_cons_of_mem f hf', he⟩

theorem keeps_disj? {fs : List (ShardId → Option Evidence)} (h : AllSound w qs rs)
    (hfs : rs.filterMap evidence? = fs) (hds : rs.filterMap deferred? = []) :
    w.Keeps (.or qs) fun id => Evidence.disj? (fs.map (· id)) [] where
  known id e he := by
    obtain ⟨o, ho, hne⟩ : ∃ o ∈ fs.map (· id), o ≠ none := by
      by_contra hnone
      push Not at hnone
      rw [Evidence.disj?_eq_none_iff.mpr hnone] at he
      cases he
    obtain ⟨f, hf, rfl⟩ := List.mem_map.mp ho
    obtain ⟨-, q, -, hk⟩ := exists_shard_of_evidence? h (hfs ▸ hf)
    obtain ⟨e', he'⟩ := Option.ne_none_iff_exists'.mp hne
    exact hk.known id e' he'
  complete d hd hq := by
    rw [World.holds, Query.holds_or] at hq
    obtain ⟨e, he, ha⟩ := (any_admits h hd hq).resolve_right (absurd hds)
    cases hs : Evidence.disj? (fs.map (· d.shard)) [] with
    | none =>
      obtain ⟨f, hf, hfe⟩ := List.mem_filterMap.mp he
      have := Evidence.disj?_eq_none_iff.mp hs _ (List.mem_map.mpr ⟨f, hfs ▸ hf, rfl⟩)
      rw [hfe] at this
      cases this
    | some e' =>
      refine ⟨e', rfl, ?_⟩
      rw [Evidence.disj?_eq_some hs, List.filterMap_map, ← hfs]
      exact Evidence.admits_disj (.inl ⟨e, he, ha⟩)
  faithful d hd e he := by
    have heq := any_holds_eq h hd
    rw [hds, hfs, List.any_nil, Bool.or_false] at heq
    rw [World.holds, Evidence.disj?_eq_some he, Evidence.holds_disj, List.filterMap_map,
      List.any_nil, Bool.or_false, World.holds, Query.holds_or]
    exact heq.symm

theorem answered_disj {fs : List (ShardId → Option Evidence)} {ds : List Query}
    (h : AllSound w qs rs) (hfs : rs.filterMap evidence? = fs)
    (hds : rs.filterMap deferred? = ds) (hne : ds ≠ []) :
    w.Answered (.or qs) fun id => .disj (fs.filterMap (· id)) ds where
  admits _ _ := Evidence.admits_disj (.inr hne)
  faithful d hd := by
    rw [World.holds, Evidence.holds_disj, World.holds, Query.holds_or]
    exact (hfs ▸ hds ▸ any_holds_eq h hd).symm

theorem isSound_any (h : AllSound w qs rs) : (Reading.any (.or qs) rs).IsSound w (.or qs) := by
  have heq := fun d => any_holds_eq (d := d) h
  unfold any
  cases hfs : rs.filterMap evidence? with
  | nil =>
    cases hds : rs.filterMap deferred? with
    | nil =>
      intro d hd
      rw [World.holds, Query.holds_or]
      exact (heq d hd).trans (by rw [hfs, hds]; rfl)
    | cons => exact fun _ _ => rfl
  | cons f fs =>
    have hlive := (exists_shard_of_evidence? h (hfs ▸ List.mem_cons_self)).1
    cases hds : rs.filterMap deferred? with
    | nil => exact ⟨hlive, keeps_disj? h hfs hds⟩
    | cons b bs =>
      exact ⟨hlive, fun _ _ => rfl, answered_disj h hfs hds (List.cons_ne_nil _ _)⟩

/-! ### Conjunctions -/

theorem all_holds_eq (h : AllSound w qs rs) (hd : w.Has d)
    (hn : ∀ r ∈ rs, r.context ≠ .absent)
    (hsome : ∀ f ∈ rs.filterMap evidence?, (f d.shard).isSome = true) :
    qs.all (w.holds · d) =
      (((rs.filterMap evidence?).filterMap (· d.shard)).all (w.holds ·.query d) &&
        ((rs.filterMap answers?).all (fun g => w.holds (g d.shard).query d) &&
          (rs.filterMap delayed?).all (w.holds · d))) := by
  induction h with
  | nil => rfl
  | @cons q r qs rs h _ ih =>
    have htail := ih fun r hr => hn r (List.mem_cons_of_mem _ hr)
    cases r with
    | absent => exact absurd rfl (hn _ List.mem_cons_self)
    | delayed p =>
      rw [List.all_cons, htail hsome, ← h d hd, Bool.and_left_comm,
        Bool.and_left_comm (w.holds p d)]
      rfl
    | mixed p g =>
      rw [List.all_cons, htail hsome, ← h.2.2.faithful d hd, Bool.and_left_comm,
        ← Bool.and_assoc (w.holds (g d.shard).query d)]
      rfl
    | present f =>
      obtain ⟨e, he⟩ := Option.isSome_iff_exists.mp (hsome f List.mem_cons_self)
      rw [List.all_cons, htail fun g hg => hsome g (List.mem_cons_of_mem f hg),
        ← h.2.faithful d hd e he, ← Bool.and_assoc]
      change _ = (List.all ((f :: rs.filterMap evidence?).filterMap (· d.shard)) _ && _)
      rw [List.filterMap_cons, he]
      rfl

theorem all_admits (h : AllSound w qs rs) (hd : w.Has d) (hq : qs.all (w.holds · d) = true) :
    (∀ f ∈ rs.filterMap evidence?, ∃ e, f d.shard = some e ∧ e.found.admits d.uid) ∧
      ∀ g ∈ rs.filterMap answers?, (g d.shard).found.admits d.uid := by
  induction h with
  | nil => exact ⟨by simp, by simp⟩
  | @cons q r qs rs h _ ih =>
    rw [List.all_cons, Bool.and_eq_true] at hq
    obtain ⟨he, hg⟩ := ih hq.2
    cases r with
    | absent => exact ⟨he, hg⟩
    | delayed p => exact ⟨he, hg⟩
    | mixed p g => exact ⟨he, List.forall_mem_cons.mpr ⟨h.2.2.admits d hd, hg⟩⟩
    | present f => exact ⟨List.forall_mem_cons.mpr ⟨h.2.complete d hd hq.1, he⟩, hg⟩

theorem keeps_conj? {f : ShardId → Option Evidence} {fs : List (ShardId → Option Evidence)}
    {gs : List (ShardId → Evidence)} {ds : List Query} (h : AllSound w qs rs)
    (hn : ∀ r ∈ rs, r.context ≠ .absent) (hfs : rs.filterMap evidence? = f :: fs)
    (hgs : rs.filterMap answers? = gs) (hds : rs.filterMap delayed? = ds) :
    w.Keeps (.and qs) fun id => Evidence.conj? ((f :: fs).map (· id)) (gs.map (· id)) ds where
  known id e he := by
    obtain ⟨hall, -, -⟩ := Evidence.conj?_eq_some he
    obtain ⟨-, q, -, hk⟩ := exists_shard_of_evidence? h (hfs ▸ List.mem_cons_self)
    obtain ⟨e', he'⟩ := Option.isSome_iff_exists.mp (hall (f id) List.mem_cons_self)
    exact hk.known id e' he'
  complete d hd hq := by
    rw [World.holds, Query.holds_and] at hq
    obtain ⟨hes, hgs'⟩ := all_admits h hd hq
    rw [hfs] at hes
    rw [hgs] at hgs'
    have hall : ∀ o ∈ (f :: fs).map (· d.shard), o.isSome = true := by
      intro o ho
      obtain ⟨k, hk, rfl⟩ := List.mem_map.mp ho
      obtain ⟨e, he, -⟩ := hes k hk
      exact Option.isSome_iff_exists.mpr ⟨e, he⟩
    have hadmits : (Evidence.conj (((f :: fs).map (· d.shard)).filterMap (·) ++
        gs.map (· d.shard)) ds).found.admits d.uid := by
      apply Evidence.admits_conj
      intro e he
      rcases List.mem_append.mp he with he | he
      · rw [List.filterMap_map] at he
        obtain ⟨k, hk, hke⟩ := List.mem_filterMap.mp he
        obtain ⟨e', he', ha⟩ := hes k hk
        obtain rfl : e' = e := Option.some.inj (he'.symm.trans hke)
        exact ha
      · obtain ⟨g, hg, rfl⟩ := List.mem_map.mp he
        exact hgs' g hg
    refine ⟨_, ?_, hadmits⟩
    have hne := Matches.isEmpty_of_admits hadmits
    rw [Evidence.conj?, if_pos hall, Option.filter, if_pos]
    rw [Evidence.isEmpty, hne]
    rfl
  faithful d hd e he := by
    obtain ⟨hall, rfl, -⟩ := Evidence.conj?_eq_some he
    have heq := all_holds_eq h hd hn fun k hk =>
      hall _ (List.mem_map.mpr ⟨k, hfs ▸ hk, rfl⟩)
    rw [hfs, hgs, hds] at heq
    rw [World.holds, Evidence.holds_conj, List.filterMap_map, List.all_append, List.all_map,
      World.holds, Query.holds_and, Bool.and_assoc]
    exact heq.symm

theorem isSound_all (h : AllSound w qs rs) (hne : qs ≠ []) :
    (Reading.all (.and qs) rs).IsSound w (.and qs) := by
  unfold all
  split
  · next ha =>
    intro d hd
    obtain ⟨q, hq, hf⟩ := exists_false_of_absent h ha hd
    rw [World.holds, Query.holds_and, List.all_eq_false]
    exact ⟨q, hq, by simpa [World.holds] using hf⟩
  next ha =>
  have hn : ∀ r ∈ rs, r.context ≠ .absent := fun r hr hctx => ha ⟨r, hr, hctx⟩
  cases hfs : rs.filterMap evidence? with
  | cons f fs =>
    have hlive := (exists_shard_of_evidence? h (hfs ▸ List.mem_cons_self)).1
    exact ⟨hlive, keeps_conj? h hn hfs rfl rfl⟩
  | nil =>
    cases hgs : rs.filterMap answers? with
    | cons g gs =>
      exact ⟨exists_shard_of_answers? h (hgs ▸ List.mem_cons_self), fun _ _ => rfl,
        fun _ _ => trivial, fun _ _ => rfl⟩
    | nil =>
      cases hds : rs.filterMap delayed? with
      | cons => exact fun _ _ => rfl
      | nil => exact absurd (eq_nil_of_parts h hn hfs hgs hds) hne

end Reading

end ShardedSearch.Merge
