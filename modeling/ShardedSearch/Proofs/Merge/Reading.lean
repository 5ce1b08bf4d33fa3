import ShardedSearch.Proofs.Merge.Stream

/-! # Readings

What a looked-up tree amounts to: nothing, a deferred clause, a partial function from
shards to evidence, or a mixture that has an answer for every shard. The reading of a
merge is computed from those of its streams.
-/

namespace ShardedSearch.Merge

open Candidate

inductive Reading where
  /-- There is no shard. -/
  | absent
  /-- The index does not know the clause. -/
  | delayed (query : Query)
  /-- The shards and what is known of them. -/
  | present (evidence : ShardId → Option Evidence)
  /-- What is known of every shard, deferred clauses included. -/
  | mixed (query : Query) (answers : ShardId → Evidence)

namespace Reading

def context : Reading → Context
  | absent => .absent
  | delayed _ => .delayed
  | present _ => .present
  | mixed .. => .mixed

def evidence? : Reading → Option (ShardId → Option Evidence)
  | present f => some f
  | _ => none

def answers? : Reading → Option (ShardId → Evidence)
  | mixed _ g => some g
  | _ => none

def delayed? : Reading → Option Query
  | delayed q => some q
  | _ => none

def deferred? : Reading → Option Query
  | delayed q => some q
  | mixed q _ => some q
  | _ => none

def any (q : Query) (rs : List Reading) : Reading :=
  match rs.filterMap evidence?, rs.filterMap deferred? with
  | [], [] => absent
  | [], _ :: _ => delayed q
  | f :: fs, [] => present fun id => Evidence.disj? ((f :: fs).map (· id)) []
  | f :: fs, d :: ds => mixed q fun id => .disj ((f :: fs).filterMap (· id)) (d :: ds)

def all (q : Query) (rs : List Reading) : Reading :=
  if ∃ r ∈ rs, r.context = .absent then absent
  else match rs.filterMap evidence?, rs.filterMap answers?, rs.filterMap delayed? with
    | f :: fs, gs, ds =>
      present fun id => Evidence.conj? ((f :: fs).map (· id)) (gs.map (· id)) ds
    | [], _ :: _, _ => mixed q fun _ => .unknown q
    | [], [], _ :: _ => delayed q
    | [], [], [] => absent

variable {q p : Query} {rs : List Reading} {id : ShardId} {e : Evidence}
variable {g : ShardId → Evidence}

theorem eq_disj_of_any (h : (any q rs).evidence?.bind (· id) = some e) :
    e = .disj ((rs.filterMap evidence?).filterMap (· id)) [] := by
  unfold any at h
  split at h
  · cases h
  · cases h
  · next heq _ =>
    rw [Evidence.disj?_eq_some h, heq, List.filterMap_map]
    rfl
  · cases h

theorem answer_of_any (h : any q rs = mixed p g) :
    g id = .disj ((rs.filterMap evidence?).filterMap (· id)) (rs.filterMap deferred?) := by
  unfold any at h
  split at h
  · cases h
  · cases h
  · cases h
  · next hevidence hdeferred =>
    obtain ⟨-, rfl⟩ := mixed.inj h
    rw [hevidence, hdeferred]

/-- A disjunction is deferred only if no clause has evidence. -/
theorem evidence?_of_any_delayed (h : any q rs = delayed p) : rs.filterMap evidence? = [] := by
  unfold any at h
  split at h
  · cases h
  · next hevidence _ => exact hevidence
  · cases h
  · cases h

theorem eq_conj_of_all (h : (all q rs).evidence?.bind (· id) = some e) :
    (∀ r ∈ rs, r.context ≠ .absent) ∧ (∀ f ∈ rs.filterMap evidence?, (f id).isSome = true) ∧
      e = .conj ((rs.filterMap evidence?).filterMap (· id) ++ (rs.filterMap answers?).map (· id))
        (rs.filterMap delayed?) := by
  unfold all at h
  split at h
  · cases h
  · next habsent =>
    refine ⟨fun r hr hctx => habsent ⟨r, hr, hctx⟩, ?_⟩
    split at h
    · next hevidence =>
      obtain ⟨hall, rfl, -⟩ := Evidence.conj?_eq_some h
      rw [hevidence]
      refine ⟨List.forall_mem_map.mp hall, ?_⟩
      rw [List.filterMap_map]
      rfl
    · cases h
    · cases h
    · cases h

theorem delayed_of_all_delayed (h : all q rs = delayed p) : ∀ r ∈ rs, ∃ d, r = delayed d := by
  unfold all at h
  split at h
  · cases h
  · next habsent =>
    split at h
    · cases h
    · cases h
    · next hevidence hanswers _ =>
      intro r hr
      cases r with
      | absent => exact absurd ⟨_, hr, rfl⟩ habsent
      | delayed d => exact ⟨d, rfl⟩
      | present f => cases List.filterMap_eq_nil_iff.mp hevidence _ hr
      | mixed d g => cases List.filterMap_eq_nil_iff.mp hanswers _ hr
    · cases h

end Reading

/-- Whether a looked-up stream has a reading. -/
def Stream.Realises (s : Stream) : Reading → Prop
  | .absent => s.context = .absent ∧ ∃ s', s.drain = pure ([], s')
  | .delayed q => s.context = .delayed ∧ s.query = q ∧ q.IsFlat
  | .present f => s.context = .present ∧ ∃ cs, s.Emits cs ∧ ∀ id, evidenceAt cs id = f id
  | .mixed q g => s.context = .mixed ∧ s.query = q ∧ q.IsFlat ∧ (∃ cs, s.Emits cs) ∧ s.Answers g

namespace Stream

variable {s : Stream} {ss : List Stream} {r : Reading} {rs : List Reading} {n : Nat} {q : Query}

theorem context_of_realises (h : s.Realises r) : s.context = r.context := by
  cases r <;> exact h.1

@[simp]
theorem opsWithin_context : (opsWithin n).context = context := by cases n <;> rfl

@[simp]
theorem opsWithin_query : (opsWithin n).query = query := by cases n <;> rfl

theorem sort_of_realises (h : List.Forall₂ Realises ss rs) (hn : heightOfAll ss ≤ n) :
    ∃ children css, Disjunction.sort (opsWithin n) ss =
        (children, rs.filterMap Reading.deferred?) ∧
      List.Forall₂ (EmitsWithin n) children css ∧
      (∀ id, css.map (evidenceAt · id) = (rs.filterMap Reading.evidence?).map (· id)) ∧
      ∀ d ∈ rs.filterMap Reading.deferred?, d.IsFlat := by
  induction h with
  | nil => exact ⟨[], [], rfl, .nil, fun _ => rfl, by simp⟩
  | @cons s r ss rs hs hss ih =>
    rw [heightOfAll] at hn
    obtain ⟨children, css, hsort, hr, hat, hf⟩ := ih (by omega)
    rw [Disjunction.sort, opsWithin_context, opsWithin_query, context_of_realises hs, hsort]
    cases r with
    | absent => exact ⟨children, css, rfl, hr, hat, hf⟩
    | delayed q =>
      obtain ⟨-, rfl, hq⟩ := hs
      exact ⟨children, css, rfl, hr, hat, List.forall_mem_cons.mpr ⟨hq, hf⟩⟩
    | present f =>
      obtain ⟨-, cs, he, hf'⟩ := hs
      refine ⟨s :: children, cs :: css, rfl, .cons (he.within (by omega)) hr, fun id => ?_, hf⟩
      rw [List.map_cons, hf', hat]
      rfl
    | mixed q g =>
      obtain ⟨-, rfl, hq, -⟩ := hs
      exact ⟨children, css, rfl, hr, hat, List.forall_mem_cons.mpr ⟨hq, hf⟩⟩

theorem isEmpty_of_emits {children : List Stream} {css : List (List Candidate)}
    {fs : List (ShardId → Option Evidence)} {id : ShardId}
    (hr : List.Forall₂ (EmitsWithin n) children css)
    (hat : css.map (evidenceAt · id) = fs.map (· id)) : children.isEmpty = fs.isEmpty := by
  cases hr with
  | nil => cases fs <;> first | rfl | simp at hat
  | cons => cases fs <;> first | rfl | simp at hat

/-- A disjunction of streams with readings has theirs joined; where all of them are deferred it
is replaced as a whole. -/
theorem disjunction_of_realises (h : List.Forall₂ Realises ss rs) (hq : q.IsFlat) :
    ∃ d, Disjunction.ofStreams (opsFor ss) q ss = pure d ∧
      d.context = (Reading.any q rs).context ∧
      (d.context ≠ .delayed → (disjunction d).Realises (Reading.any q rs)) := by
  obtain ⟨children, css, hsort, hr, hat, hf⟩ := sort_of_realises h (Nat.le_refl _)
  rw [Disjunction.ofStreams, opsFor, hsort]
  obtain ⟨d, cs, href, he, hcs, hquery, hdef, hctx⟩ := Disjunction.refill_of_emits
    (d := ⟨q, _, children, _, none⟩) (emitting _) hr hf
  have hemits : (disjunction d).Emits cs := .of_within (n := heightOfAll ss + 1) he
  refine ⟨d, href, ?_⟩
  simp only at hquery hdef hctx hcs
  rw [Disjunction.contextOf, isEmpty_of_emits hr (hat "")] at hctx
  unfold Reading.any
  cases hfs : rs.filterMap Reading.evidence? with
  | nil =>
    cases hds : rs.filterMap Reading.deferred? with
    | nil =>
      rw [hfs, hds] at hctx
      rw [hfs] at hat
      have hnil : cs = [] := by
        apply ext_evidenceAt hemits.isListing.ascending .nil
        intro id
        rw [hcs, Disjunction.evidenceOf, hat]
        rfl
      exact ⟨hctx, fun _ => ⟨hctx, drain_of_emits (hnil ▸ hemits)⟩⟩
    | cons =>
      rw [hfs, hds] at hctx
      exact ⟨hctx, fun h => absurd hctx h⟩
  | cons f fs =>
    rw [hfs] at hat hctx
    cases hds : rs.filterMap Reading.deferred? with
    | nil =>
      rw [hds] at hctx hcs
      refine ⟨hctx, fun _ => ⟨hctx, cs, hemits, fun id => ?_⟩⟩
      rw [hcs, Disjunction.evidenceOf, hat]
    | cons b bs =>
      rw [hds] at hctx hcs hdef
      refine ⟨hctx, fun _ => ⟨hctx, hquery, hq, ⟨cs, hemits⟩, ?_⟩⟩
      have ha : AnswersWithin (heightOfAll ss + 1) (disjunction d)
          fun id => .disj ((f :: fs).filterMap (· id)) (b :: bs) := by
        refine ⟨fun _ h => h, hctx, by simp [hdef], cs, he, fun id => ?_⟩
        have hes : css.filterMap (evidenceAt · id) = (f :: fs).filterMap (· id) := by
          have := congrArg (List.filterMap (·)) (hat id)
          rwa [List.filterMap_map, List.filterMap_map] at this
        rw [hcs, hdef, Disjunction.getD_evidenceOf, hes]
      exact (within_of_height_le (heightOfAll ss + 1) _ (disjunction d) (Nat.le_refl _)).2 _ ha

theorem any_absent_iff_of_realises (h : List.Forall₂ Realises ss rs) :
    (ss.any fun s => (opsWithin n).context s = .absent) = true ↔ ∃ r ∈ rs, r.context = .absent := by
  rw [opsWithin_context]
  induction h with
  | nil => simp
  | cons hs _ ih => simp only [List.any_cons, Bool.or_eq_true, ih, context_of_realises hs,
      decide_eq_true_eq, List.exists_mem_cons_iff]

theorem children_of_realises (h : List.Forall₂ Realises ss rs) (hn : heightOfAll ss ≤ n) :
    ∃ css, List.Forall₂ (EmitsWithin n) (ss.filter fun s =>
        (opsWithin n).context s = .present || (opsWithin n).context s = .pending) css ∧
      ∀ id, css.map (evidenceAt · id) = (rs.filterMap Reading.evidence?).map (· id) := by
  rw [opsWithin_context]
  induction h with
  | nil => exact ⟨[], .nil, fun _ => rfl⟩
  | @cons s r ss rs hs hss ih =>
    rw [heightOfAll] at hn
    obtain ⟨css, hr, hat⟩ := ih (by omega)
    rw [List.filter_cons, context_of_realises hs]
    cases r with
    | present f =>
      obtain ⟨-, cs, he, hf'⟩ := hs
      refine ⟨cs :: css, .cons (he.within (by omega)) hr, fun id => ?_⟩
      rw [List.map_cons, hf', hat]
      rfl
    | _ => exact ⟨css, hr, hat⟩

theorem asked_of_realises (h : List.Forall₂ Realises ss rs) (hn : heightOfAll ss ≤ n) :
    List.Forall₂ (AnswersWithin n) (ss.filter fun s => (opsWithin n).context s = .mixed)
        (rs.filterMap Reading.answers?) ∧
      ∃ css, List.Forall₂ (EmitsWithin n)
        (ss.filter fun s => (opsWithin n).context s = .mixed) css := by
  rw [opsWithin_context]
  induction h with
  | nil => exact ⟨.nil, [], .nil⟩
  | @cons s r ss rs hs hss ih =>
    rw [heightOfAll] at hn
    obtain ⟨ha, css, hr⟩ := ih (by omega)
    rw [List.filter_cons, context_of_realises hs]
    cases r with
    | mixed q g =>
      obtain ⟨-, -, -, ⟨cs, he⟩, hg⟩ := hs
      exact ⟨.cons (hg.within (by omega)) ha, cs :: css, .cons (he.within (by omega)) hr⟩
    | _ => exact ⟨ha, css, hr⟩

theorem deferred_of_realises (h : List.Forall₂ Realises ss rs) :
    (ss.filter fun s => (opsWithin n).context s = .delayed).map (opsWithin n).query =
        rs.filterMap Reading.delayed? ∧
      ∀ d ∈ rs.filterMap Reading.delayed?, d.IsFlat := by
  rw [opsWithin_context, opsWithin_query]
  induction h with
  | nil => exact ⟨rfl, by simp⟩
  | @cons s r ss rs hs hss ih =>
    rw [List.filter_cons, context_of_realises hs]
    cases r with
    | delayed q =>
      obtain ⟨-, rfl, hq⟩ := hs
      refine ⟨?_, List.forall_mem_cons.mpr ⟨hq, ih.2⟩⟩
      exact congrArg (s.query :: ·) ih.1
    | _ => exact ih

theorem conjunction_of_realises (h : List.Forall₂ Realises ss rs) (hq : q.IsFlat) :
    ∃ j, Conjunction.ofStreams (opsFor ss) q ss = pure j ∧
      (conjunction j).Realises (Reading.all q rs) := by
  have habs := any_absent_iff_of_realises (n := heightOfAll ss) h
  obtain ⟨css, hr, hat⟩ := children_of_realises h (Nat.le_refl _)
  obtain ⟨ha, dss, hm⟩ := asked_of_realises h (Nat.le_refl _)
  obtain ⟨hd, hf⟩ := deferred_of_realises (n := heightOfAll ss) h
  have hc := isEmpty_of_emits hr (hat "")
  have hnothing : (conjunction (Conjunction.nothing q)).Emits [] := emitsOf_nothing q
  unfold Conjunction.ofStreams Reading.all opsFor
  by_cases hn : ∃ r ∈ rs, r.context = .absent
  · rw [if_pos (habs.mpr hn), if_pos hn]
    exact ⟨_, rfl, rfl, drain_of_emits hnothing⟩
  rw [if_neg fun h => hn (habs.mp h), if_neg hn]
  simp only [hc, hd]
  cases hfs : rs.filterMap Reading.evidence? with
  | cons f fs =>
    obtain ⟨j, cs, hj, he, hcs, -, hctx⟩ := Conjunction.refill_of_emits
      (j := ⟨q, .present, _, _, _, none⟩) (emitting _) (answering _) hr ha
      (by rw [hfs] at hc; simpa using hc) hf
    refine ⟨j, hj, hctx, cs, .of_within (n := heightOfAll ss + 1) he, fun id => ?_⟩
    rw [hcs, Conjunction.evidenceOf, hat, hfs]
  | nil =>
    cases hgs : rs.filterMap Reading.answers? with
    | cons g gs =>
      rw [hgs] at ha
      have hne : (ss.filter fun s => (opsWithin (heightOfAll ss)).context s = .mixed) ≠ [] := by
        intro hnil
        rw [hnil] at ha
        cases ha
      obtain ⟨j, cs, hj, he, hcs, hquery, hctx⟩ := Conjunction.refill_of_emits
        (j := ⟨q, .mixed, _, [], _, none⟩) (emitting _) (answering _) hm .nil hne hf
      have hmixed : (ss.filter fun s =>
          (opsWithin (heightOfAll ss)).context s = .mixed).isEmpty = false := by simpa using hne
      simp only [hmixed]
      refine ⟨j, hj, hctx, hquery, hq, ⟨cs, .of_within (n := heightOfAll ss + 1) he⟩, ?_⟩
      exact (within_of_height_le (heightOfAll ss + 1) _ (conjunction j) (Nat.le_refl _)).2 _
        ⟨hctx, hquery ▸ hq, fun _ => congrArg _ hquery.symm⟩
    | nil =>
      rw [hgs] at ha
      have hnil : (ss.filter fun s => (opsWithin (heightOfAll ss)).context s = .mixed) = [] :=
        List.forall₂_nil_right_iff.mp ha
      rw [hnil]
      cases hds : rs.filterMap Reading.delayed? with
      | nil => exact ⟨_, rfl, rfl, drain_of_emits hnothing⟩
      | cons b bs => exact ⟨_, rfl, rfl, rfl, hq⟩

end Stream

end ShardedSearch.Merge
