import ShardedSearch.Proofs.Candidate.Agreement
import ShardedSearch.Proofs.Merge.Faults

/-! # Rearranged merges

Two merges of matched streams bring agreeing candidates into view, in whatever order they have
their streams. Whatever a merge does treats its streams one by one, with two exceptions: streams
that have to reach a target are left as they are behind one that comes to its end, and streams
are asked for a shard until one refuses it. The first merge is over then, and the streams that
are asked refuse nothing.
-/

namespace ShardedSearch.Merge

open Candidate (Agree)

variable {σ : Type} {ops : StreamOps σ} {W : σ → Prop} {R : σ → σ → Prop} {s t : σ}
variable {ss ts : List σ} {shard target id : ShardId} {n : Nat}

/-! ### Ids in any order -/

theorem min?_perm {ids ids' : List ShardId} (h : ids.Perm ids') : ids.min? = ids'.min? :=
  Option.ext fun id => by simp only [List.min?_eq_some_iff, h.mem_iff]

theorem max?_perm {ids ids' : List ShardId} (h : ids.Perm ids') : ids.max? = ids'.max? :=
  Option.ext fun id => by simp only [List.max?_eq_some_iff, h.mem_iff]

/-! ### Streams -/

def Mixed (ops : StreamOps σ) (R : σ → σ → Prop) (s t : σ) : Prop :=
  R s t ∧ ops.context s = .mixed

/-- Answers that agree, of streams that stay related. A mixed stream refuses nothing. -/
structure Answered (ops : StreamOps σ) (R : σ → σ → Prop) (p q : Option Candidate × σ) :
    Prop where
  found : p.1.isSome = true
  agree : Option.Rel Agree p.1 q.1
  stream : Mixed ops R p.2 q.2

/-- Streams that do the same, but for the form of the queries of what they bring into view. -/
structure Rearranging (ops : StreamOps σ) (W : σ → Prop) (R : σ → σ → Prop) : Prop where
  diminishing : Diminishing ops W
  settled : ∀ {s t}, R s t → W s ∧ W t
  context : ∀ {s t}, R s t → ops.context s = ops.context t
  query : ∀ {s t}, R s t → (ops.query s).Equivalent (ops.query t)
  head : ∀ {s t}, R s t → Option.Rel Agree (ops.head s) (ops.head t)
  advance : ∀ {s t}, R s t → R (ops.advance s).value.2 (ops.advance t).value.2
  seek : ∀ {s t} id, R s t → R (ops.seek id s).value (ops.seek id t).value
  answer : ∀ {s t} id, Mixed ops R s t →
    Answered ops R (ops.answer id s).value (ops.answer id t).value

section Options

variable {c? d? : Option Candidate}

theorem isSome_eq_of_agree (h : Option.Rel Agree c? d?) : c?.isSome = d?.isSome := by
  cases h <;> rfl

theorem any_eq_of_agree (p : ShardId → Bool) (h : Option.Rel Agree c? d?) :
    (c?.any fun c => p c.shard) = d?.any fun d => p d.shard := by
  cases h with
  | none => rfl
  | some h => rw [Option.any_some, Option.any_some, h.shard]

theorem agree_of_map {α : Type} {f : Candidate → α} {T : α → α → Prop}
    (h : Option.Rel Agree c? d?) (hf : ∀ c d, Agree c d → T (f c) (f d)) :
    Option.Rel T (c?.map f) (d?.map f) := by
  cases h with
  | none => exact .none
  | some h => exact .some (hf _ _ h)

end Options

theorem value_mapM_seek (ops : StreamOps σ) (id : ShardId) (ss : List σ) :
    (ss.mapM (ops.seek id)).value = ss.map fun s => (ops.seek id s).value := by
  induction ss with
  | nil => rfl
  | cons s ss ih =>
    rw [List.mapM_cons, List.map_cons, ← ih]
    rfl

namespace Rearranging

variable (h : Rearranging ops W R)
include h

theorem settled_of_matched (hr : Matched R ss ts) : (∀ s ∈ ss, W s) ∧ ∀ t ∈ ts, W t := by
  constructor
  · intro s hs
    obtain ⟨t, -, hst⟩ := hr.exists_right hs
    exact (h.settled hst).1
  · intro t ht
    obtain ⟨s, -, hst⟩ := hr.exists_left ht
    exact (h.settled hst).2

theorem evidence (hr : Matched R ss ts) :
    Matched Evidence.Agree (ss.filterMap fun s => (ops.head s).map (·.evidence))
      (ts.filterMap fun t => (ops.head t).map (·.evidence)) :=
  hr.filterMap fun _ _ hst => agree_of_map (h.head hst) fun _ _ hcd => hcd.evidence

theorem shards_perm (hr : Matched R ss ts) :
    (ss.filterMap fun s => (ops.head s).map (·.shard)).Perm
      (ts.filterMap fun t => (ops.head t).map (·.shard)) := by
  have hm := hr.filterMap (S := Eq) (f := fun s => (ops.head s).map (·.shard))
    (g := fun t => (ops.head t).map (·.shard)) fun _ _ hst =>
      agree_of_map (h.head hst) fun _ _ hcd => hcd.shard
  simpa only [List.map_id_fun', id] using hm.perm_map fun _ _ heq => heq

theorem mapM_seek (id : ShardId) (hr : Matched R ss ts) :
    Matched R (ss.mapM (ops.seek id)).value (ts.mapM (ops.seek id)).value := by
  rw [value_mapM_seek, value_mapM_seek]
  exact hr.map fun _ _ hst => h.seek id hst

end Rearranging

/-! ### Disjunctions -/

namespace Disjunction

variable {d e : Disjunction σ} {es fs : List Evidence}

/-- The same merge, with its streams and clauses in another order. -/
structure Rearranged (R : σ → σ → Prop) (d e : Disjunction σ) : Prop where
  query : d.query.Equivalent e.query
  context : d.context = e.context
  deferred : Matched Query.Equivalent d.deferred e.deferred
  head : Option.Rel Agree d.head e.head
  children : Matched R d.children e.children
  /-- A mixed merge has something for any shard. -/
  mixed : d.context = .mixed → d.deferred ≠ []

theorem Rearranged.withChildren (h : Rearranged R d e) (hr : Matched R ss ts) :
    Rearranged R { d with children := ss } { e with children := ts } :=
  { h with children := hr }

theorem value_takeAll (ops : StreamOps σ) (shard : ShardId) (ss : List σ) :
    (takeAll ops shard ss).value =
      (ss.flatMap fun s => (takeFrom ops shard
          (if Shard.isDay shard then ops.remaining s else 1) s).value.1,
        ss.map fun s => (takeFrom ops shard
          (if Shard.isDay shard then ops.remaining s else 1) s).value.2) := by
  induction ss with
  | nil => rfl
  | cons s ss ih =>
    rw [List.flatMap_cons, List.map_cons, takeAll, Raising.value_bind, Raising.value_bind, ih]
    rfl

def gathered (ops : StreamOps σ) (shard : ShardId) (s : σ) : List Evidence × σ :=
  let p := (takeFrom ops shard (ops.remaining (ops.seek shard s).value)
    (ops.seek shard s).value).value
  (p.1 ++ (((ops.head p.2).filter fun c => Shard.covers c.shard shard).toList.map (·.evidence)),
    p.2)

theorem value_collect (ops : StreamOps σ) (shard : ShardId) (ss : List σ) :
    (collect ops shard ss).value =
      (ss.flatMap fun s => (gathered ops shard s).1, ss.map fun s => (gathered ops shard s).2) := by
  induction ss with
  | nil => rfl
  | cons s ss ih =>
    rw [List.flatMap_cons, List.map_cons, collect, Raising.value_bind, Raising.value_bind,
      Raising.value_bind, ih]
    rfl

theorem combined_rearranged (shard : ShardId) (hd : Rearranged R d e) (hmixed : d.context = .mixed)
    (hes : Matched Evidence.Agree es fs) :
    (d.combined shard es).isSome = true ∧
      Option.Rel Agree (d.combined shard es) (e.combined shard fs) := by
  have hne : d.deferred.isEmpty = false := by simpa using hd.mixed hmixed
  have hne' : e.deferred.isEmpty = false := hd.deferred.isEmpty_eq ▸ hne
  rw [combined, combined, hne, hne', Bool.and_false, Bool.and_false]
  exact ⟨rfl, .some ⟨rfl, Evidence.agree_disj hes hd.deferred⟩⟩

variable (h : Rearranging ops W R)
include h

theorem takeFrom_rearranged (n : Nat) (hst : R s t) :
    List.Forall₂ Evidence.Agree (takeFrom ops shard n s).value.1
        (takeFrom ops shard n t).value.1 ∧
      R (takeFrom ops shard n s).value.2 (takeFrom ops shard n t).value.2 := by
  induction n generalizing s t with
  | zero => exact ⟨.nil, hst⟩
  | succ n ih =>
    have hhead := h.head hst
    rw [takeFrom, takeFrom]
    cases hc : ops.head s with
    | none =>
      rw [hc] at hhead
      cases hd : ops.head t with
      | none => exact ⟨.nil, hst⟩
      | some d =>
        rw [hd] at hhead
        cases hhead
    | some c =>
      rw [hc] at hhead
      cases hd : ops.head t with
      | none =>
        rw [hd] at hhead
        cases hhead
      | some d =>
        rw [hd] at hhead
        cases hhead with
        | some hcd =>
          dsimp only
          rw [← hcd.shard]
          split
          · obtain ⟨hes, hrest⟩ := ih (h.advance hst)
            exact ⟨.cons hcd.evidence hes, hrest⟩
          · exact ⟨.nil, hst⟩

theorem takeFrom_remaining_rearranged (shard : ShardId) (hst : R s t) :
    List.Forall₂ Evidence.Agree (takeFrom ops shard (ops.remaining s) s).value.1
        (takeFrom ops shard (ops.remaining t) t).value.1 ∧
      R (takeFrom ops shard (ops.remaining s) s).value.2
        (takeFrom ops shard (ops.remaining t) t).value.2 := by
  obtain ⟨hs, ht⟩ := h.settled hst
  let n := max (ops.remaining s) (ops.remaining t)
  rw [takeFrom_eq h.diminishing hs (Nat.le_refl _) (Nat.le_max_left _ _ : _ ≤ n),
    takeFrom_eq h.diminishing ht (Nat.le_refl _) (Nat.le_max_right _ _ : _ ≤ n)]
  exact takeFrom_rearranged h n hst

theorem takeAll_rearranged (shard : ShardId) (hr : Matched R ss ts) :
    Matched Evidence.Agree (takeAll ops shard ss).value.1 (takeAll ops shard ts).value.1 ∧
      Matched R (takeAll ops shard ss).value.2 (takeAll ops shard ts).value.2 := by
  have htake : ∀ s t, R s t →
      List.Forall₂ Evidence.Agree
          (takeFrom ops shard (if Shard.isDay shard then ops.remaining s else 1) s).value.1
          (takeFrom ops shard (if Shard.isDay shard then ops.remaining t else 1) t).value.1 ∧
        R (takeFrom ops shard (if Shard.isDay shard then ops.remaining s else 1) s).value.2
          (takeFrom ops shard (if Shard.isDay shard then ops.remaining t else 1) t).value.2 := by
    intro s t hst
    split
    · exact takeFrom_remaining_rearranged h shard hst
    · exact takeFrom_rearranged h 1 hst
  rw [value_takeAll, value_takeAll]
  exact ⟨hr.flatMap fun s t hst => .of_forall₂ (htake s t hst).1,
    hr.map fun s t hst => (htake s t hst).2⟩

theorem refill_rearranged (hd : Rearranged R d e) :
    Rearranged R (d.refill ops).value (e.refill ops).value := by
  have hlow : lowest? ops d.children = lowest? ops e.children :=
    min?_perm (h.shards_perm hd.children)
  rw [value_refill, value_refill, ← hlow]
  split
  · next shard _ =>
    obtain ⟨hes, hrest⟩ := takeAll_rearranged h shard hd.children
    exact { hd with
      children := hrest, head := .some ⟨rfl, Evidence.agree_disj hes hd.deferred⟩ }
  · exact { hd with head := .none }

theorem advance_rearranged (hd : Rearranged R d e) :
    Rearranged R (d.advance ops).value.2 (e.advance ops).value.2 := by
  have hhead := isSome_eq_of_agree hd.head
  rw [advance, advance]
  cases hc : d.head <;> cases hc' : e.head <;> rw [hc, hc'] at hhead
  · exact hd
  · cases hhead
  · cases hhead
  · exact refill_rearranged h hd

theorem seek_rearranged (id : ShardId) (hd : Rearranged R d e) :
    Rearranged R (d.seek ops id).value (e.seek ops id).value := by
  rw [seek, seek, any_eq_of_agree (Shard.precedes · id) hd.head]
  split
  · exact refill_rearranged h (hd.withChildren (h.mapM_seek id hd.children))
  · exact hd

theorem collect_rearranged (shard : ShardId) (hr : Matched R ss ts) :
    Matched Evidence.Agree (collect ops shard ss).value.1 (collect ops shard ts).value.1 ∧
      Matched R (collect ops shard ss).value.2 (collect ops shard ts).value.2 := by
  have hone : ∀ s t, R s t →
      List.Forall₂ Evidence.Agree (gathered ops shard s).1 (gathered ops shard t).1 ∧
        R (gathered ops shard s).2 (gathered ops shard t).2 := by
    intro s t hst
    obtain ⟨hes, hrest⟩ := takeFrom_remaining_rearranged h shard (h.seek shard hst)
    refine ⟨List.rel_append hes ?_, hrest⟩
    have hday := h.head hrest
    revert hday
    generalize ops.head _ = c?
    generalize ops.head _ = d?
    intro hday
    cases hday with
    | none => exact .nil
    | some hcd =>
      rw [Option.filter_some, Option.filter_some, ← hcd.shard]
      split
      · exact .cons hcd.evidence .nil
      · exact .nil
  rw [value_collect, value_collect]
  exact ⟨hr.flatMap fun s t hst => .of_forall₂ (hone s t hst).1,
    hr.map fun s t hst => (hone s t hst).2⟩

def Combined (R : σ → σ → Prop) (p q : Option Candidate × Disjunction σ) : Prop :=
  p.1.isSome = true ∧ Option.Rel Agree p.1 q.1 ∧ Rearranged R p.2 q.2 ∧ p.2.context = .mixed

omit h in
theorem combined_self (hd : Rearranged R d e) (hmixed : d.context = .mixed)
    (hes : Matched Evidence.Agree es fs) :
    Combined R (d.combined shard es, d) (e.combined shard fs, e) := by
  obtain ⟨hsome, hagree⟩ := combined_rearranged shard hd hmixed hes
  exact ⟨hsome, hagree, hd, hmixed⟩

theorem answerRest_rearranged (hd : Rearranged R d e) (hmixed : d.context = .mixed)
    (hes : Matched Evidence.Agree es fs) :
    Combined R (answer.answerRest ops shard d es).value
      (answer.answerRest ops shard e fs).value := by
  obtain ⟨hrest, hr⟩ := collect_rearranged h shard hd.children
  have hnext := refill_rearranged h (hd.withChildren hr)
  exact combined_self hnext ((context_refill _).trans hmixed) (hes.append hrest)

/-- A mixed disjunction answers alike, whatever shard it is asked for. -/
theorem answer_rearranged (shard : ShardId) (hd : Rearranged R d e) (hmixed : d.context = .mixed) :
    Combined R (d.answer ops shard).value (e.answer ops shard).value := by
  have hmixed' : e.context = .mixed := hd.context ▸ hmixed
  have hhead := hd.head
  rw [answer, answer, hmixed, hmixed']
  dsimp only
  rw [answer.answerMerged, answer.answerMerged]
  cases hc : d.head <;> cases hc' : e.head <;> rw [hc, hc'] at hhead
  · exact answerRest_rearranged h hd hmixed .nil
  · cases hhead
  · cases hhead
  · cases hhead with
    | some hcd =>
      dsimp only
      rw [← hcd.shard]
      split
      · exact answerRest_rearranged h hd hmixed (.singleton hcd.evidence)
      · split
        · exact combined_self hd hmixed (.singleton hcd.evidence)
        · split
          · exact combined_self hd hmixed .nil
          · exact answerRest_rearranged h hd hmixed .nil

omit h in
theorem sort_eq (ops : StreamOps σ) (ss : List σ) :
    sort ops ss =
      (ss.filter fun s => ops.context s = .present || ops.context s = .pending,
        (ss.filter fun s => ops.context s = .delayed || ops.context s = .mixed).map ops.query) := by
  induction ss with
  | nil => rfl
  | cons s ss ih =>
    rw [sort, ih, List.filter_cons, List.filter_cons]
    cases ops.context s <;> rfl

omit h in
theorem ne_nil_of_contextOf {deferred : List Query} (hc : contextOf ss deferred = .mixed) :
    deferred ≠ [] := by
  rintro rfl
  cases ss <;> cases hc

theorem ofStreams_rearranged {q q' : Query} (hq : q.Equivalent q') (hr : Matched R ss ts) :
    Rearranged R (ofStreams ops q ss).value (ofStreams ops q' ts).value := by
  have hfilter : ∀ p : Context → Bool,
      Matched R (ss.filter fun s => p (ops.context s)) (ts.filter fun t => p (ops.context t)) :=
    fun p => hr.filter fun _ _ hst => by rw [h.context hst]
  have hchildren := hfilter fun c => c = .present || c = .pending
  have hdeferred := (hfilter fun c => c = .delayed || c = .mixed).map fun _ _ hst => h.query hst
  rw [ofStreams, ofStreams, sort_eq, sort_eq]
  refine refill_rearranged h ⟨hq, ?_, hdeferred, .none, hchildren, ne_nil_of_contextOf⟩
  simp only [contextOf, hchildren.isEmpty_eq, hdeferred.isEmpty_eq]

end Disjunction

/-! ### Conjunctions -/

namespace Conjunction

variable {i j : Conjunction σ}

/-- The same merge, with its streams and clauses in another order. When it is over, its streams
may have come to different places. -/
structure Rearranged (ops : StreamOps σ) (W : σ → Prop) (R : σ → σ → Prop)
    (i j : Conjunction σ) : Prop where
  query : i.query.Equivalent j.query
  context : i.context = j.context
  deferred : Matched Query.Equivalent i.deferred j.deferred
  settled : i.Settled W ∧ j.Settled W
  head : Option.Rel Agree i.head j.head
  streams : i.head.isSome = true →
    Matched R i.children j.children ∧ Matched (Mixed ops R) i.asked j.asked

/-- A merge that looks for its next candidate, with its streams and clauses in another order. -/
structure Seeking (ops : StreamOps σ) (R : σ → σ → Prop) (i j : Conjunction σ) : Prop where
  query : i.query.Equivalent j.query
  context : i.context = j.context
  deferred : Matched Query.Equivalent i.deferred j.deferred
  children : Matched R i.children j.children
  asked : Matched (Mixed ops R) i.asked j.asked

theorem Rearranged.seeking (h : Rearranged ops W R i j) (hhead : i.head.isSome = true) :
    Seeking ops R i j :=
  ⟨h.query, h.context, h.deferred, (h.streams hhead).1, (h.streams hhead).2⟩

theorem settled_of_nil (hchildren : i.children = []) (hasked : i.asked = []) : i.Settled W := by
  rw [Settled, hchildren, hasked]
  exact ⟨List.forall_mem_nil W, List.forall_mem_nil W⟩

theorem rearranged_of_nil {q q' : Query} {qs qs' : List Query} (c : Context)
    (hq : q.Equivalent q') (hr : Matched Query.Equivalent qs qs') :
    Rearranged ops W R ⟨q, c, [], [], qs, none⟩ ⟨q', c, [], [], qs', none⟩ :=
  ⟨hq, rfl, hr, ⟨settled_of_nil rfl rfl, settled_of_nil rfl rfl⟩, .none, fun _ => ⟨.nil, .nil⟩⟩

theorem answer_of_mixed (shard : ShardId) (hmixed : i.context = .mixed) :
    i.answer ops shard = pure (some ⟨shard, .unknown i.query⟩, i) := by
  rw [answer, hmixed]

def isAt (ops : StreamOps σ) (target : ShardId) (s : σ) : Bool :=
  (ops.head s).any fun c => c.shard = target || Shard.covers c.shard target

def reached (ops : StreamOps σ) (target : ShardId) (s : σ) : σ :=
  if isAt ops target s then s else (ops.seek target s).value

theorem value_align (target : ShardId) (hheads : ∀ s ∈ ss, (ops.head s).isSome = true) :
    if ss.all fun s => (ops.head (reached ops target s)).isSome then
      (align ops target ss).value =
        (some (ss.all (isAt ops target)), ss.map (reached ops target))
    else (align ops target ss).value.1 = none := by
  induction ss with
  | nil => rfl
  | cons s ss ih =>
    obtain ⟨hs, hss⟩ := List.forall_mem_cons.mp hheads
    obtain ⟨c, hc⟩ := Option.isSome_iff_exists.mp hs
    have ih := ih hss
    have hat : isAt ops target s = true ↔
        c.shard = target ∨ Shard.covers c.shard target = true := by
      rw [isAt, hc, Option.any_some, Bool.or_eq_true, decide_eq_true_iff]
    rw [List.all_cons, List.all_cons, List.map_cons, align, hc]
    dsimp only
    by_cases hself : isAt ops target s = true
    · rw [if_pos (hat.mp hself), reached, if_pos hself, hs, hself, Bool.true_and, Bool.true_and]
      split
      · next hall =>
        rw [if_pos hall] at ih
        rw [Raising.value_bind, ih]
        rfl
      · next hall =>
        rw [if_neg hall] at ih
        exact ih
    · have hfalse : isAt ops target s = false := by simpa using hself
      rw [if_neg fun h => hself (hat.mpr h), reached, if_neg hself, hfalse, Bool.false_and,
        Raising.value_bind]
      cases hseek : (ops.head (ops.seek target s).value).isSome with
      | false => rfl
      | true =>
        rw [Bool.true_and, if_pos rfl]
        split
        · next hall =>
          rw [if_pos hall] at ih
          rw [Raising.value_bind, ih]
          rfl
        · next hall =>
          rw [if_neg hall] at ih
          rw [Raising.value_bind]
          exact congrArg (Option.map _) ih

def taken (ops : StreamOps σ) (target : ShardId) (s : σ) : σ :=
  if (ops.head s).any (·.shard = target) then (ops.advance s).value.2 else s

theorem value_takeAll (ops : StreamOps σ) (target : ShardId) (ss : List σ) :
    (takeAll ops target ss).value =
      (ss.filterMap fun s => (ops.head s).map (·.evidence), ss.map (taken ops target)) := by
  refine Prod.ext (evidence_takeAll target ss) ?_
  induction ss with
  | nil => rfl
  | cons s ss ih =>
    rw [takeAll_cons, List.map_cons, ih]
    rfl

theorem value_askAll (hs : ∀ s ∈ ss, (ops.answer target s).value.1.isSome = true) :
    (askAll ops target ss).value =
      (some (ss.filterMap fun s => (ops.answer target s).value.1.map (·.evidence)),
        ss.map fun s => (ops.answer target s).value.2) := by
  induction ss with
  | nil => rfl
  | cons s ss ih =>
    obtain ⟨hs, hss⟩ := List.forall_mem_cons.mp hs
    rw [askAll, Raising.value_bind, List.filterMap_cons, List.map_cons]
    cases hans : (ops.answer target s).value with
    | mk c? t =>
      rw [hans] at hs
      cases c? with
      | none => cases hs
      | some c =>
        dsimp only
        rw [Raising.value_bind, ih hss]
        rfl

theorem heads?_eq (ops : StreamOps σ) (ss : List σ) :
    heads? ops ss = if ss.all fun s => (ops.head s).isSome then
      some (ss.filterMap fun s => (ops.head s).map (·.shard)) else none := by
  induction ss with
  | nil => rfl
  | cons s ss ih =>
    rw [heads?, ih, List.all_cons, List.filterMap_cons]
    cases ops.head s with
    | none => rfl
    | some c =>
      rw [Option.isSome_some, Bool.true_and]
      cases ss.all fun s => (ops.head s).isSome <;> rfl

section Steps

variable (h : Rearranging ops W R)
include h

theorem target_eq (hr : Matched R ss ts) :
    (heads? ops ss).bind List.max? = (heads? ops ts).bind List.max? := by
  rw [heads?_eq, heads?_eq, hr.all_eq fun _ _ hst => isSome_eq_of_agree (h.head hst)]
  split
  · exact max?_perm (h.shards_perm hr)
  · rfl

theorem isAt_eq (hst : R s t) : isAt ops target s = isAt ops target t :=
  any_eq_of_agree (fun id => id = target || Shard.covers id target) (h.head hst)

theorem reached_rearranged (hst : R s t) : R (reached ops target s) (reached ops target t) := by
  rw [reached, reached, isAt_eq h hst]
  split
  · exact hst
  · exact h.seek target hst

theorem taken_rearranged (hst : R s t) : R (taken ops target s) (taken ops target t) := by
  rw [taken, taken, any_eq_of_agree (· = target) (h.head hst)]
  split
  · exact h.advance hst
  · exact hst

theorem Seeking.settled (hij : Seeking ops R i j) : i.Settled W ∧ j.Settled W := by
  obtain ⟨hi, hj⟩ := h.settled_of_matched hij.children
  obtain ⟨hi', hj'⟩ := h.settled_of_matched (hij.asked.mono fun _ _ hst => hst.1)
  exact ⟨⟨hi, hi'⟩, hj, hj'⟩

theorem askAll_rearranged (target : ShardId) (hr : Matched (Mixed ops R) ss ts) :
    ∃ es fs, (askAll ops target ss).value = (some es, (askAll ops target ss).value.2) ∧
      (askAll ops target ts).value = (some fs, (askAll ops target ts).value.2) ∧
      Matched Evidence.Agree es fs ∧
      Matched (Mixed ops R) (askAll ops target ss).value.2 (askAll ops target ts).value.2 := by
  have hleft : ∀ s ∈ ss, (ops.answer target s).value.1.isSome = true := by
    intro s hs
    obtain ⟨t, -, hst⟩ := hr.exists_right hs
    exact (h.answer target hst).found
  have hright : ∀ t ∈ ts, (ops.answer target t).value.1.isSome = true := by
    intro t ht
    obtain ⟨s, -, hst⟩ := hr.exists_left ht
    have hans := h.answer target hst
    exact isSome_eq_of_agree hans.agree ▸ hans.found
  rw [value_askAll hleft, value_askAll hright]
  refine ⟨_, _, rfl, rfl, hr.filterMap fun _ _ hst => ?_, hr.map fun _ _ hst => ?_⟩
  · exact agree_of_map (h.answer target hst).agree fun _ _ hcd => hcd.evidence
  · exact (h.answer target hst).stream

theorem takeAll_rearranged (target : ShardId) (hr : Matched R ss ts) :
    Matched Evidence.Agree (takeAll ops target ss).value.1 (takeAll ops target ts).value.1 ∧
      Matched R (takeAll ops target ss).value.2 (takeAll ops target ts).value.2 := by
  rw [value_takeAll, value_takeAll]
  exact ⟨h.evidence hr, hr.map fun _ _ hst => taken_rearranged h hst⟩

/-- Streams that all have something in view reach the target together, or one of them comes to
its end. -/
theorem align_rearranged (hr : Matched R ss ts)
    (htarget : (heads? ops ss).bind List.max? = some target) :
    ((align ops target ss).value.1 = none ∧ (align ops target ts).value.1 = none) ∨
    ∃ aligned ss' ts', (align ops target ss).value = (some aligned, ss') ∧
      (align ops target ts).value = (some aligned, ts') ∧ Matched R ss' ts' := by
  have hheads : ∀ {us : List σ}, (heads? ops us).bind List.max? = some target →
      ∀ u ∈ us, (ops.head u).isSome = true := fun hb u hu => by
    obtain ⟨c, hc, -⟩ := (exists_mem_of_target hb).2 u hu
    exact Option.isSome_iff_exists.mpr ⟨c, hc⟩
  have hal := value_align target (hheads htarget)
  have hal' := value_align target (hheads (target_eq h hr ▸ htarget))
  rw [← hr.all_eq fun _ _ hst => isSome_eq_of_agree (h.head (reached_rearranged h hst))] at hal'
  split at hal
  · next hall =>
    rw [if_pos hall, ← hr.all_eq fun _ _ hst => isAt_eq h hst] at hal'
    exact .inr ⟨_, _, _, hal, hal', hr.map fun _ _ hst => reached_rearranged h hst⟩
  · next hall =>
    rw [if_neg hall] at hal'
    exact .inl ⟨hal, hal'⟩

theorem Seeking.ended (hij : Seeking ops R i j) (hs : ∀ s ∈ ss, W s) (ht : ∀ t ∈ ts, W t) :
    Rearranged ops W R { i with children := ss, head := none }
      { j with children := ts, head := none } := by
  obtain ⟨hi, hj⟩ := hij.settled h
  exact ⟨hij.query, hij.context, hij.deferred, ⟨⟨hs, hi.2⟩, ht, hj.2⟩, .none, nofun⟩

theorem Seeking.found {c d : Candidate} (hij : Seeking ops R i j) (hcd : Agree c d) :
    Rearranged ops W R { i with head := some c } { j with head := some d } := by
  obtain ⟨hi, hj⟩ := hij.settled h
  exact ⟨hij.query, hij.context, hij.deferred, ⟨⟨hi.1, hi.2⟩, hj.1, hj.2⟩, .some hcd,
    fun _ => ⟨hij.children, hij.asked⟩⟩

/-- Both searches come to agreeing candidates, or both merges are over. -/
theorem refillWithin_rearranged (n : Nat) (hij : Seeking ops R i j) :
    Rearranged ops W R (i.refillWithin ops n).value (j.refillWithin ops n).value := by
  induction n generalizing i j with
  | zero =>
    obtain ⟨hi, hj⟩ := hij.settled h
    exact hij.ended h hi.1 hj.1
  | succ n ih =>
    obtain ⟨hi, hj⟩ := hij.settled h
    have hmoves := h.diminishing.moves
    have htarget' := target_eq h hij.children
    cases htarget : (heads? ops i.children).bind List.max? with
    | none =>
      rw [htarget] at htarget'
      rw [refillWithin, refillWithin, htarget, ← htarget']
      exact hij.ended h hi.1 hj.1
    | some target =>
      rw [htarget] at htarget'
      rcases align_rearranged h hij.children htarget with
        ⟨hal, hal'⟩ | ⟨aligned, ss, ts, hal, hal', hr⟩
      · rw [refillWithin_of_ended htarget hal, refillWithin_of_ended htarget'.symm hal']
        exact hij.ended h (keeps_of_forall₂ (align_moves hmoves target i.children) hi.1).1
          (keeps_of_forall₂ (align_moves hmoves target j.children) hj.1).1
      cases aligned with
      | false =>
        rw [refillWithin_of_moved htarget hal, refillWithin_of_moved htarget'.symm hal']
        exact ih { hij with children := hr }
      | true =>
        obtain ⟨es, fs, hask, hask', hes, hasked⟩ := askAll_rearranged h target hij.asked
        obtain ⟨htaken, hrest⟩ := takeAll_rearranged h target hr
        have hagree := Evidence.agree_conj (htaken.append hes) hij.deferred
        rw [refillWithin_of_aligned htarget hal hask,
          refillWithin_of_aligned htarget'.symm hal' hask']
        dsimp only
        rw [← hagree.isEmpty_eq]
        have hnext : Seeking ops R
            { i with children := (takeAll ops target ss).value.2,
                     asked := (askAll ops target i.asked).value.2 }
            { j with children := (takeAll ops target ts).value.2,
                     asked := (askAll ops target j.asked).value.2 } :=
          ⟨hij.query, hij.context, hij.deferred, hrest, hasked⟩
        split
        · exact ih hnext
        · exact hnext.found h ⟨rfl, hagree⟩

theorem refill_rearranged (hij : Seeking ops R i j) :
    Rearranged ops W R (i.refill ops).value (j.refill ops).value := by
  obtain ⟨hi, hj⟩ := hij.settled h
  let m := ops.remainingOfAll i.children
  let n := ops.remainingOfAll j.children
  have hm : m < max m n + 1 := by omega
  have hn : n < max m n + 1 := by omega
  rw [refill, refill, refillWithin_eq h.diminishing hi (Nat.lt_succ_self _) hm,
    refillWithin_eq h.diminishing hj (Nat.lt_succ_self _) hn]
  exact refillWithin_rearranged h _ hij

theorem advance_rearranged (hij : Rearranged ops W R i j) :
    Rearranged ops W R (i.advance ops).value.2 (j.advance ops).value.2 := by
  have hhead := isSome_eq_of_agree hij.head
  rw [advance, advance]
  cases hc : i.head <;> cases hc' : j.head <;> rw [hc, hc'] at hhead
  · exact hij
  · cases hhead
  · cases hhead
  · exact refill_rearranged h (hij.seeking (by rw [hc]; rfl))

theorem seek_rearranged (id : ShardId) (hij : Rearranged ops W R i j) :
    Rearranged ops W R (i.seek ops id).value (j.seek ops id).value := by
  rw [seek, seek, any_eq_of_agree (Shard.precedes · id) hij.head]
  split
  · next hany =>
    have hhead : i.head.isSome = true := by
      rw [← any_eq_of_agree (Shard.precedes · id) hij.head] at hany
      cases hc : i.head with
      | none =>
        rw [hc] at hany
        cases hany
      | some c => rfl
    have hseeking := hij.seeking hhead
    exact refill_rearranged h
      { hseeking with children := h.mapM_seek id hseeking.children }
  · exact hij

theorem ofStreams_rearranged {q q' : Query} (hq : q.Equivalent q') (hr : Matched R ss ts) :
    Rearranged ops W R (ofStreams ops q ss).value (ofStreams ops q' ts).value := by
  have hfilter : ∀ p : Context → Bool,
      Matched R (ss.filter fun s => p (ops.context s)) (ts.filter fun t => p (ops.context t)) :=
    fun p => hr.filter fun _ _ hst => by rw [h.context hst]
  have hchildren := hfilter fun c => c = .present || c = .pending
  have hmixed := hfilter fun c => c = .mixed
  have hdeferred := (hfilter fun c => c = .delayed).map fun _ _ hst => h.query hst
  have hasked : Matched (Mixed ops R) _ _ := hmixed.mono_of_mem fun s hs _ hst =>
    ⟨hst, of_decide_eq_true (List.mem_filter.mp hs).2⟩
  have habsent : (ss.any fun s => ops.context s = .absent) =
      ts.any fun t => ops.context t = .absent := hr.any_eq fun _ _ hst => by rw [h.context hst]
  rw [ofStreams, ofStreams, habsent]
  dsimp only
  rw [hchildren.isEmpty_eq, hmixed.isEmpty_eq, hdeferred.isEmpty_eq]
  split
  · exact rearranged_of_nil .absent hq .nil
  · split
    · exact refill_rearranged h ⟨hq, rfl, hdeferred, hchildren, hasked⟩
    · split
      · exact refill_rearranged h ⟨hq, rfl, hdeferred, hmixed, .nil⟩
      · split
        · exact rearranged_of_nil .delayed hq hdeferred
        · exact rearranged_of_nil .absent hq .nil

end Steps

end Conjunction

end ShardedSearch.Merge
