import ShardedSearch.Proofs.Merge.Made
import ShardedSearch.Proofs.Merge.Reading
import ShardedSearch.Proofs.Merge.Rearranging

/-! # Seeking in trees of lists

A tree of merges over lists of shards has a listing of its own, whatever the queries of its
candidates look like. To seek in it leaves out the candidates that come before, at any
point of the listing and however deep the merges are nested.
-/

namespace ShardedSearch.Merge.Stream

open Candidate

variable {s t : Stream} {ss ts : List Stream} {cs : List Candidate} {q : Query} {id : ShardId}
variable {pool : Option WorkerPool} {n : Nat}

abbrev IsShardList : List Candidate → Prop := ListingOf fun _ => True

theorem isShardList (h : Ascending cs) (hday : ∀ c ∈ cs, Shard.isDay c.shard = false) :
    IsShardList cs := ⟨h, hday, fun _ _ => trivial⟩

/-- Trees of merges over lists of shards that are looked up or still to be looked up. -/
inductive OverLists : Stream → Prop where
  | known {q : Query} {cs : List Candidate} : Ascending cs →
      (∀ c ∈ cs, Shard.isDay c.shard = false) → OverLists (leaf (.ofList q cs))
  | pending {q : Query} {cs : List Candidate} : Ascending cs →
      (∀ c ∈ cs, Shard.isDay c.shard = false) →
      OverLists (leaf ⟨q, .pending ⟨none, .ok (.ofList cs)⟩⟩)
  | anyOf {q : Query} {ss : List Stream} {pool : Option WorkerPool} {d : Disjunction Stream} :
      (∀ s ∈ ss, OverLists s) → (Stream.anyOf q ss pool).run.value = .ok d →
      OverLists (disjunction d)
  | allOf {q : Query} {ss : List Stream} {pool : Option WorkerPool} {j : Conjunction Stream} :
      (∀ s ∈ ss, OverLists s) → (Stream.allOf q ss pool).run.value = .ok j →
      OverLists (conjunction j)

/-- A tree after a number of candidates has been taken; at its end it stays there. -/
def after : Nat → Stream → Raising Stream
  | 0, s => pure s
  | n + 1, s => do
    let (_, s) ← s.advance
    after n s

/-! ### Trees with a listing -/

/-- What a tree has left that has been looked up. A leaf without any candidate is absent. -/
inductive Has : Stream → List Candidate → Prop where
  | emits {s : Stream} {cs : List Candidate} : s.EmitsOf (fun _ => True) cs → Has s cs
  | absent (q : Query) : Has (leaf ⟨q, .absent⟩) []

theorem has_ofList (q : Query) (h : IsShardList cs) : Has (leaf (.ofList q cs)) cs := by
  cases cs with
  | nil => exact .absent q
  | cons c cs => exact .emits ⟨h, rfl⟩

theorem Has.isShardList (h : s.Has cs) : IsShardList cs := by
  cases h with
  | emits h => exact h.isListing
  | absent => exact .nil

theorem Has.advance (h : s.Has cs) : ∃ t, s.advance = pure (cs.head?, t) ∧ t.Has cs.tail := by
  cases h with
  | emits h =>
    obtain ⟨t, hadvance, ht⟩ := advance_of_emits h
    exact ⟨t, hadvance, .emits ht⟩
  | absent => exact ⟨_, rfl, .absent _⟩

theorem Has.after (n : Nat) (h : s.Has cs) : ∃ t, s.after n = pure t ∧ t.Has (cs.drop n) := by
  induction n generalizing s cs with
  | zero => exact ⟨s, rfl, h⟩
  | succ n ih =>
    obtain ⟨t, hadvance, ht⟩ := h.advance
    obtain ⟨u, hafter, hu⟩ := ih ht
    refine ⟨u, by rw [Stream.after, hadvance, pure_bind]; exact hafter, ?_⟩
    rwa [List.drop_tail] at hu

theorem Has.seek (id : ShardId) (h : s.Has cs) :
    ∃ t, s.seek id = pure t ∧ t.Has (onward id cs) := by
  cases h with
  | emits h =>
    obtain ⟨t, hseek, ht⟩ := seek_of_emits id h
    exact ⟨t, hseek, .emits ht⟩
  | absent => exact ⟨_, rfl, .absent _⟩

theorem Has.head (h : s.Has cs) : s.head = cs.head? := by
  cases h with
  | emits h => exact head_of_emits h
  | absent => rfl

theorem Has.drain (h : s.Has cs) : ∃ t, s.drain = pure (cs, t) := by
  cases h with
  | emits h => exact drain_of_emits h
  | absent => exact ⟨_, rfl⟩

theorem onward_eq_filter (h : IsShardList cs) :
    onward id cs = cs.filter (!Shard.precedes ·.shard id) := by
  apply List.filter_congr
  intro c hc
  rw [Shard.precedes_of_isDay_eq_false (h.numbered c hc), decide_not]

/-! ### Merges -/

/-- A tree that has been looked up and is merged for its listing, or is left out without one. -/
structure IsMerged (s : Stream) : Prop where
  context : s.context = .present ∨ s.context = .absent
  has : ∃ cs, s.Has cs

theorem IsMerged.emits (h : s.IsMerged) (hs : s.context = .present) :
    ∃ cs, s.EmitsOf (fun _ => True) cs := by
  obtain ⟨cs, hcs⟩ := h.has
  cases hcs with
  | emits hcs => exact ⟨cs, hcs⟩
  | absent => cases hs

theorem exists_listings_of_isMerged (h : ∀ s ∈ ss, s.IsMerged)
    (hs : ∀ s ∈ ss, s.context = .present) (hn : ∀ s ∈ ss, s.height ≤ n) :
    ∃ css, List.Forall₂ (EmitsOfWithin (fun _ => True) n) ss css := by
  induction ss with
  | nil => exact ⟨[], .nil⟩
  | cons s ss ih =>
    rw [List.forall_mem_cons] at h hs hn
    obtain ⟨cs, hcs⟩ := h.1.emits hs.1
    obtain ⟨css, hcss⟩ := ih h.2 hs.2 hn.2
    exact ⟨cs :: css, .cons (hcs.within hn.1) hcss⟩

theorem isMerged_disjunction (h : ∀ s ∈ ss, s.IsMerged) :
    (disjunction (Disjunction.ofStreams (opsFor ss) q ss).value).IsMerged := by
  have hctx : ∀ s ∈ ss, s.context = .present ∨ s.context = .absent := fun s hs => (h s hs).context
  have hsort : Disjunction.sort (opsFor ss) ss = (ss.filter (·.context = .present), []) := by
    rw [Disjunction.sort_eq, opsFor, opsWithin_context]
    refine Prod.ext (List.filter_congr fun s hs => ?_) ?_
    · rcases hctx s hs with hs | hs <;> rw [hs] <;> rfl
    · refine List.map_eq_nil_iff.mpr (List.filter_eq_nil_iff.mpr fun s hs => ?_)
      rcases hctx s hs with hs | hs <;> rw [hs] <;> decide
  have hmem : ∀ s ∈ ss.filter (·.context = .present), s ∈ ss ∧ s.context = .present := by
    simp [List.mem_filter]
  obtain ⟨css, hcss⟩ := exists_listings_of_isMerged (fun s hs => h s (hmem s hs).1)
    (fun s hs => (hmem s hs).2) fun s hs => height_le_heightOfAll (hmem s hs).1
  obtain ⟨d, cs, hd, hemits, -, -, -, hcontext⟩ := Disjunction.refill_of_emits
    (d := ⟨q, Disjunction.contextOf (ss.filter (·.context = .present)) [],
      ss.filter (·.context = .present), [], none⟩) (emitting _) hcss (List.forall_mem_nil _)
  have hmade : Disjunction.ofStreams (opsFor ss) q ss = pure d := by
    rw [Disjunction.ofStreams, hsort]
    exact hd
  rw [hmade]
  refine ⟨?_, cs, .emits (.of_within (n := heightOfAll ss + 1) hemits)⟩
  change d.context = _ ∨ d.context = _
  rw [hcontext, Disjunction.contextOf]
  cases (ss.filter (·.context = .present)).isEmpty with
  | true => exact .inr rfl
  | false => exact .inl rfl

theorem isMerged_nothing (q : Query) : (conjunction (Conjunction.nothing q)).IsMerged :=
  ⟨.inr rfl, [], .emits (emitsOf_nothing q)⟩

theorem isMerged_conjunction (h : ∀ s ∈ ss, s.IsMerged) :
    (conjunction (Conjunction.ofStreams (opsFor ss) q ss).value).IsMerged := by
  rw [Conjunction.ofStreams, opsFor, opsWithin_context]
  split
  · exact isMerged_nothing q
  · next habsent =>
    have hctx : ∀ s ∈ ss, s.context = .present := fun s hs =>
      (h s hs).context.resolve_right fun hs' =>
        habsent (List.any_eq_true.mpr ⟨s, hs, decide_eq_true hs'⟩)
    have hfilter : ∀ p : Context → Bool,
        ss.filter (fun s => p s.context) = if p .present then ss else [] := by
      intro p
      rw [List.filter_congr fun s hs => congrArg p (hctx s hs)]
      cases p .present <;> simp
    have hchildren := hfilter fun c => c = .present || c = .pending
    have hmixed := hfilter fun c => c = .mixed
    have hdeferred := hfilter fun c => c = .delayed
    simp only [Bool.or_false, decide_true, if_true, reduceCtorEq, decide_false, Bool.false_eq_true,
      if_false] at hchildren hmixed hdeferred
    rw [hchildren, hmixed, hdeferred]
    cases ss with
    | nil => exact isMerged_nothing q
    | cons s ss =>
      obtain ⟨css, hcss⟩ := exists_listings_of_isMerged h hctx fun s hs => height_le_heightOfAll hs
      obtain ⟨j, cs, hj, hemits, -, -, hcontext⟩ := Conjunction.refill_of_emits
        (j := ⟨q, .present, s :: ss, [], [], none⟩) (emitting _) (answering _) hcss .nil
        (List.cons_ne_nil s ss) (List.forall_mem_nil _)
      have hmade : (conjunction j).IsMerged :=
        ⟨.inl hcontext, cs, .emits (.of_within (n := heightOfAll (s :: ss) + 1) hemits)⟩
      rw [← Raising.value_pure j, ← hj] at hmade
      exact hmade

/-! ### Looking up -/

structure ActsAs (s t : Stream) : Prop where
  advance : s.advance = t.advance
  seek : ∀ id, s.seek id = t.seek id
  drain : s.drain = t.drain

theorem ActsAs.refl (s : Stream) : ActsAs s s := ⟨rfl, fun _ => rfl, rfl⟩

theorem await_ofList (q : Query) (cs : List Candidate) :
    await (leaf (.ofList q cs)) = pure (leaf (.ofList q cs)) := by
  cases cs <;> rfl

theorem await_pending (q : Query) (cs : List Candidate) :
    await (leaf ⟨q, .pending ⟨none, .ok (.ofList cs)⟩⟩) = pure (leaf (.ofList q cs)) := by
  cases cs <;> rfl

theorem actsAs_pending (q : Query) (cs : List Candidate) :
    ActsAs (leaf ⟨q, .pending ⟨none, .ok (.ofList cs)⟩⟩) (leaf (.ofList q cs)) := by
  cases cs with
  | nil => exact ⟨rfl, fun _ => rfl, rfl⟩
  | cons c cs => exact ⟨rfl, fun _ => rfl, rfl⟩

theorem isMerged_ofList (q : Query) (h : IsShardList cs) : IsMerged (leaf (.ofList q cs)) := by
  refine ⟨?_, cs, has_ofList q h⟩
  cases cs with
  | nil => exact .inr rfl
  | cons c cs => exact .inl rfl

theorem isMerged_resolveAll
    (hs : ∀ s ∈ ss, ∃ t, s.await = pure t ∧ ActsAs s t ∧ t.IsMerged)
    (h : (resolveAll pool ss).run.value = .ok ts) : ∀ t ∈ ts, t.IsMerged := by
  intro t ht
  obtain ⟨s, hs', hst⟩ := exists_right_of_forall₂ (forall₂_of_resolveAll h).flip t ht
  obtain ⟨t', hawait, -, hmerged⟩ := hs s hs'
  rw [hawait] at hst
  obtain rfl := Except.ok.inj hst
  exact hmerged

theorem OverLists.exists_isMerged (h : s.OverLists) :
    ∃ t, s.await = pure t ∧ ActsAs s t ∧ t.IsMerged := by
  induction h with
  | @known q cs hcs hday =>
    exact ⟨_, await_ofList q cs, .refl _, isMerged_ofList q (isShardList hcs hday)⟩
  | @pending q cs hcs hday =>
    exact ⟨_, await_pending q cs, actsAs_pending q cs, isMerged_ofList q (isShardList hcs hday)⟩
  | anyOf _ hmake ih =>
    rw [Stream.anyOf] at hmake
    obtain ⟨ts, hts, hd⟩ := exists_of_bind hmake
    obtain rfl := Except.ok.inj hd
    exact ⟨_, rfl, .refl _, isMerged_disjunction (isMerged_resolveAll ih hts)⟩
  | allOf _ hmake ih =>
    rw [Stream.allOf] at hmake
    obtain ⟨ts, hts, hj⟩ := exists_of_bind hmake
    obtain rfl := Except.ok.inj hj
    exact ⟨_, rfl, .refl _, isMerged_conjunction (isMerged_resolveAll ih hts)⟩

theorem exists_awaitAll (hs : ∀ s ∈ ss, ∃ t, s.await = pure t) : ∃ ts, awaitAll ss = pure ts := by
  induction ss with
  | nil => exact ⟨[], rfl⟩
  | cons s ss ih =>
    rw [List.forall_mem_cons] at hs
    obtain ⟨t, ht⟩ := hs.1
    obtain ⟨ts, hts⟩ := ih hs.2
    exact ⟨t :: ts, by rw [awaitAll, ht, hts]; rfl⟩

theorem exists_resolveAll (hs : ∀ s ∈ ss, ∃ t, s.await = pure t) :
    ∃ ts, resolveAll none ss = pure ts := by
  have hlost : ¬ ss.any isLost = true := fun hany => by
    obtain ⟨s, hs', hl⟩ := List.any_eq_true.mp hany
    obtain ⟨t, ht⟩ := hs s hs'
    cases congrArg (·.run.value) ((await_of_isLost hl).symm.trans ht)
  rw [resolveAll_of_obstacle?_eq_none (by rw [obstacle?, if_neg hlost])]
  exact exists_awaitAll hs

theorem OverLists.exists_merges (q : Query) (h : ∀ s ∈ ss, s.OverLists) :
    (∃ d, (Stream.anyOf q ss none).run.value = .ok d) ∧
      ∃ j, (Stream.allOf q ss none).run.value = .ok j := by
  obtain ⟨ts, hts⟩ := exists_resolveAll fun s hs => (h s hs).exists_isMerged.imp fun _ ht => ht.1
  rw [Stream.anyOf, Stream.allOf, hts]
  exact ⟨⟨_, rfl⟩, _, rfl⟩

/-- What a tree has left after some candidates; only at the start it may not be looked up. -/
theorem OverLists.exists_after (h : s.OverLists) (n : Nat) :
    ∃ t u cs, s.after n = pure t ∧ ActsAs t u ∧ u.Has cs := by
  obtain ⟨u, -, hu, hmerged⟩ := h.exists_isMerged
  obtain ⟨cs, hcs⟩ := hmerged.has
  cases n with
  | zero => exact ⟨s, u, cs, rfl, hu, hcs⟩
  | succ n =>
    obtain ⟨t, ht, hhas⟩ := hcs.after (n + 1)
    refine ⟨t, t, _, ?_, .refl t, hhas⟩
    rw [Stream.after, hu.advance]
    exact ht

/-- To seek in a tree of lists leaves out the candidates that precede a shard, whatever has been
taken before, and brings the first of the others into view. -/
theorem seek_drops_preceding (h : s.OverLists) (n : Nat) (id : ShardId) :
    ∃ t cs u rest rest', s.after n = pure t ∧ t.drain = pure (cs, rest) ∧
      t.seek id = pure u ∧
      u.drain = pure (cs.filter (!Shard.precedes ·.shard id), rest') ∧
      u.head.map (·.shard) = (cs.filter (!Shard.precedes ·.shard id)).head?.map (·.shard) := by
  obtain ⟨t, t', cs, hafter, hacts, hcs⟩ := h.exists_after n
  obtain ⟨rest, hdrain⟩ := hcs.drain
  obtain ⟨u, hseek, hu⟩ := hcs.seek id
  obtain ⟨rest', hdrain'⟩ := hu.drain
  have honward : onward id cs = cs.filter (!Shard.precedes ·.shard id) :=
    onward_eq_filter hcs.isShardList
  rw [honward] at hu hdrain'
  exact ⟨t, cs, u, rest, rest', hafter, hacts.drain.trans hdrain, (hacts.seek id).trans hseek,
    hdrain', by rw [hu.head]⟩

def shardList (ids : List ShardId) : Stream :=
  leaf (.ofList (.equals "A" "1") (ids.map fun id => ⟨id, .unknown (.and [.equals "A" "1"])⟩))

def nestedLists : Making Stream := do
  let j ← allOf (.and []) [shardList ["20240101_1", "20240101_3", "20240103_2"],
    shardList ["20240101_1", "20240102_5", "20240103_2"]] none
  let d ← anyOf (.or []) [.conjunction j, shardList ["20240101_2", "20240102_1", "20240104_7"]]
    none
  return .disjunction d

theorem seek_drops_preceding_nestedLists :
    ∃ s, nestedLists.run.value = .ok s ∧
      ∃ t cs u rest rest', s.after 1 = pure t ∧ t.drain = pure (cs, rest) ∧
        t.seek "20240102" = pure u ∧
        u.drain = pure (cs.filter (!Shard.precedes ·.shard "20240102"), rest') ∧
        u.head.map (·.shard) =
          (cs.filter (!Shard.precedes ·.shard "20240102")).head?.map (·.shard) ∧
        cs.map (·.shard) = ["20240101_2", "20240102_1", "20240103_2", "20240104_7"] := by
  have hfirst : (shardList ["20240101_1", "20240101_3", "20240103_2"]).OverLists :=
    .known (by decide +kernel) (by decide +kernel)
  have hsecond : (shardList ["20240101_1", "20240102_5", "20240103_2"]).OverLists :=
    .known (by decide +kernel) (by decide +kernel)
  have hthird : (shardList ["20240101_2", "20240102_1", "20240104_7"]).OverLists :=
    .known (by decide +kernel) (by decide +kernel)
  have hinner : ∀ s ∈ [_, _], OverLists s :=
    List.forall_mem_cons.mpr ⟨hfirst, List.forall_mem_singleton.mpr hsecond⟩
  obtain ⟨-, j, hj⟩ := OverLists.exists_merges (.and []) hinner
  have houter : ∀ s ∈ [_, _], OverLists s :=
    List.forall_mem_cons.mpr ⟨.allOf hinner hj, List.forall_mem_singleton.mpr hthird⟩
  obtain ⟨⟨d, hd⟩, -⟩ := OverLists.exists_merges (.or []) houter
  have hmade : nestedLists.run.value = .ok (disjunction d) := by
    simp only [nestedLists, ExceptT.run_bind, Raising.value_bind, hj, hd]
    rfl
  obtain ⟨t, cs, u, rest, rest', hafter, hdrain, hseek⟩ :=
    seek_drops_preceding (.anyOf houter hd) 1 "20240102"
  have hshards : (nestedLists.run.value.toOption.map fun s =>
      (s.after 1).value.drain.value.1.map (·.shard)) =
        some ["20240101_2", "20240102_1", "20240103_2", "20240104_7"] := by decide +kernel
  rw [hmade] at hshards
  refine ⟨_, hmade, t, cs, u, rest, rest', hafter, hdrain, hseek.1, hseek.2.1, hseek.2.2, ?_⟩
  have hcs : ((disjunction d).after 1).value.drain.value.1.map (·.shard) = _ :=
    Option.some.inj hshards
  rwa [hafter, Raising.value_pure, hdrain] at hcs

end ShardedSearch.Merge.Stream
