import ShardedSearch.Proofs.Merge.Progress
import ShardedSearch.Proofs.Merge.Stream

/-! # Merges in lockstep

Two merges whose streams behave alike behave alike, for every way to compare outcomes that
goes along with sequencing. The number of rounds that a merge is given does not matter, so
the streams need not have equally many candidates left.
-/

namespace ShardedSearch.Merge

/-- How the outcomes of computations are compared, given how their values are. -/
structure Comparison where
  Rel : {α β : Type} → (α → β → Prop) → Raising α → Raising β → Prop
  pure : ∀ {α β : Type} {R : α → β → Prop} {a : α} {b : β}, R a b → Rel R (pure a) (pure b)
  bind : ∀ {α β γ δ : Type} {R : α → β → Prop} {S : γ → δ → Prop} {x : Raising α}
    {y : Raising β} {f : α → Raising γ} {g : β → Raising δ},
    Rel R x y → (∀ a b, R a b → Rel S (f a) (g b)) → Rel S (x >>= f) (y >>= g)

namespace Comparison

variable {C : Comparison} {α β γ δ : Type} {R S : α → β → Prop} {T : γ → δ → Prop}
variable {x : Raising α} {y : Raising β}

theorem map {f : α → γ} {g : β → δ} (h : C.Rel R x y) (hfg : ∀ a b, R a b → T (f a) (g b)) :
    C.Rel T (f <$> x) (g <$> y) := by
  rw [map_eq_pure_bind, map_eq_pure_bind]
  exact C.bind h fun a b hab => C.pure (hfg a b hab)

theorem mono (h : C.Rel R x y) (hRS : ∀ a b, R a b → S a b) : C.Rel S x y := by
  rw [← id_map x, ← id_map y]
  exact C.map h hRS

def same : Comparison where
  Rel R x y := x.errors = y.errors ∧ R x.value y.value
  pure h := ⟨rfl, h⟩
  bind h hf := ⟨by rw [Raising.errors_bind, Raising.errors_bind, h.1, (hf _ _ h.2).1],
    (hf _ _ h.2).2⟩

theorem eq_of_same {x y : Raising α} (h : same.Rel Eq x y) : x = y := by
  cases x
  cases y
  obtain ⟨rfl, rfl⟩ := h
  rfl

end Comparison

def Both {α σ : Type} (R : σ → σ → Prop) (p q : α × σ) : Prop := p.1 = q.1 ∧ R p.2 q.2

/-- Streams of two kinds that behave alike. -/
structure Similar {σ : Type} (C : Comparison) (ops ops' : StreamOps σ) (W W' : σ → Prop)
    (R : σ → σ → Prop) : Prop where
  left : Diminishing ops W
  right : Diminishing ops' W'
  settled : ∀ {s t}, R s t → W s ∧ W' t
  context : ∀ {s t}, R s t → ops.context s = ops'.context t
  query : ∀ {s t}, R s t → ops.query s = ops'.query t
  head : ∀ {s t}, R s t → ops.head s = ops'.head t
  advance : ∀ {s t}, R s t → C.Rel (Both R) (ops.advance s) (ops'.advance t)
  seek : ∀ {s t} id, R s t → C.Rel R (ops.seek id s) (ops'.seek id t)
  answer : ∀ {s t} id, R s t → C.Rel (Both R) (ops.answer id s) (ops'.answer id t)

variable {σ : Type} {C : Comparison} {ops ops' : StreamOps σ} {W W' : σ → Prop}
variable {R : σ → σ → Prop} {s t : σ} {ss ts : List σ} {shard target id : ShardId}

theorem Similar.settled_of_forall₂ (h : Similar C ops ops' W W' R) (hr : List.Forall₂ R ss ts) :
    (∀ s ∈ ss, W s) ∧ ∀ t ∈ ts, W' t := by
  induction hr with
  | nil => exact ⟨by simp, by simp⟩
  | cons hst _ ih =>
    obtain ⟨hs, ht⟩ := h.settled hst
    exact ⟨List.forall_mem_cons.mpr ⟨hs, ih.1⟩, List.forall_mem_cons.mpr ⟨ht, ih.2⟩⟩

theorem mapM_seek_similar (h : Similar C ops ops' W W' R) (id : ShardId)
    (hr : List.Forall₂ R ss ts) :
    C.Rel (List.Forall₂ R) (ss.mapM (ops.seek id)) (ts.mapM (ops'.seek id)) := by
  induction hr with
  | nil => exact C.pure .nil
  | cons hst _ ih =>
    rw [List.mapM_cons, List.mapM_cons]
    exact C.bind (h.seek id hst) fun _ _ hst' => C.bind ih fun _ _ hr => C.pure (.cons hst' hr)

theorem answerAt_similar {head head' : σ → Option Candidate}
    {advance advance' : σ → Raising (Option Candidate × σ)} {seek seek' : ShardId → σ → Raising σ}
    (hh : ∀ {s t}, R s t → head s = head' t)
    (ha : ∀ {s t}, R s t → C.Rel (Both R) (advance s) (advance' t))
    (hk : ∀ {s t} id, R s t → C.Rel R (seek id s) (seek' id t)) (hst : R s t) :
    C.Rel (Both R) (answerAt head advance seek id s) (answerAt head' advance' seek' id t) := by
  refine C.bind (hk id hst) fun s t hst => ?_
  rw [hh hst]
  split
  · split
    · exact ha hst
    · split
      · exact C.pure ⟨rfl, hst⟩
      · exact C.pure ⟨rfl, hst⟩
  · exact C.pure ⟨rfl, hst⟩

theorem isEmpty_of_forall₂ (hr : List.Forall₂ R ss ts) : ss.isEmpty = ts.isEmpty := by
  cases hr <;> rfl

/-! ### Disjunctions -/

namespace Disjunction

variable {d e : Disjunction σ}

structure Alike (R : σ → σ → Prop) (d e : Disjunction σ) : Prop where
  query : d.query = e.query
  context : d.context = e.context
  deferred : d.deferred = e.deferred
  head : d.head = e.head
  children : List.Forall₂ R d.children e.children

theorem Alike.withChildren (h : Alike R d e) (hr : List.Forall₂ R ss ts) :
    Alike R { d with children := ss } { e with children := ts } :=
  { h with children := hr }

variable (h : Similar C ops ops' W W' R)
include h

theorem takeFrom_similar (n : Nat) (hst : R s t) :
    C.Rel (Both R) (takeFrom ops shard n s) (takeFrom ops' shard n t) := by
  induction n generalizing s t with
  | zero => exact C.pure ⟨rfl, hst⟩
  | succ n ih =>
    rw [takeFrom, takeFrom, h.head hst]
    split
    · split
      · refine C.bind (h.advance hst) fun p q hpq => C.bind (ih hpq.2) fun _ _ hes => ?_
        exact C.pure ⟨by rw [hes.1], hes.2⟩
      · exact C.pure ⟨rfl, hst⟩
    · exact C.pure ⟨rfl, hst⟩

theorem takeFrom_remaining_similar (hst : R s t) :
    C.Rel (Both R) (takeFrom ops shard (ops.remaining s) s)
      (takeFrom ops' shard (ops'.remaining t) t) := by
  obtain ⟨hs, ht⟩ := h.settled hst
  let n := max (ops.remaining s) (ops'.remaining t)
  rw [takeFrom_eq h.left hs (Nat.le_refl _) (Nat.le_max_left _ _ : _ ≤ n),
    takeFrom_eq h.right ht (Nat.le_refl _) (Nat.le_max_right _ _ : _ ≤ n)]
  exact takeFrom_similar h n hst

theorem takeAll_similar (hr : List.Forall₂ R ss ts) :
    C.Rel (fun p q => p.1 = q.1 ∧ List.Forall₂ R p.2 q.2) (takeAll ops shard ss)
      (takeAll ops' shard ts) := by
  induction hr with
  | nil => exact C.pure ⟨rfl, .nil⟩
  | @cons s t ss ts hst _ ih =>
    have htake : C.Rel (Both R)
        (takeFrom ops shard (if Shard.isDay shard then ops.remaining s else 1) s)
        (takeFrom ops' shard (if Shard.isDay shard then ops'.remaining t else 1) t) := by
      split
      · exact takeFrom_remaining_similar h hst
      · exact takeFrom_similar h 1 hst
    rw [takeAll, takeAll]
    refine C.bind htake fun _ _ hes => C.bind ih fun _ _ hrest => ?_
    exact C.pure ⟨by rw [hes.1, hrest.1], .cons hes.2 hrest.2⟩

theorem filterMap_head_similar {α : Type} (f : Candidate → α) (hr : List.Forall₂ R ss ts) :
    (ss.filterMap fun s => (ops.head s).map f) = ts.filterMap fun t => (ops'.head t).map f := by
  induction hr with
  | nil => rfl
  | cons hst _ ih => rw [List.filterMap_cons, List.filterMap_cons, h.head hst, ih]

theorem refill_similar (hd : Alike R d e) : C.Rel (Alike R) (d.refill ops) (e.refill ops') := by
  rw [refill, refill, lowest?, lowest?, filterMap_head_similar h _ hd.children]
  split
  · refine C.bind (takeAll_similar h hd.children) fun _ _ hes => C.pure ?_
    exact ⟨hd.query, hd.context, hd.deferred, by rw [hes.1, hd.deferred], hes.2⟩
  · exact C.pure ⟨hd.query, hd.context, hd.deferred, rfl, hd.children⟩

theorem advance_similar (hd : Alike R d e) :
    C.Rel (Both (Alike R)) (d.advance ops) (e.advance ops') := by
  rw [advance, advance, hd.head]
  split
  · exact C.bind (refill_similar h hd) fun _ _ hd => C.pure ⟨rfl, hd⟩
  · exact C.pure ⟨rfl, hd⟩

theorem seek_similar (id : ShardId) (hd : Alike R d e) :
    C.Rel (Alike R) (d.seek ops id) (e.seek ops' id) := by
  have hany : (d.head.any fun c => Shard.precedes c.shard id) =
      e.head.any fun c => Shard.precedes c.shard id := by rw [hd.head]
  by_cases hp : (d.head.any fun c => Shard.precedes c.shard id) = true
  · rw [seek, seek, if_pos hp, if_pos (hany ▸ hp)]
    exact C.bind (mapM_seek_similar h id hd.children) fun _ _ hr =>
      refill_similar h (hd.withChildren hr)
  · rw [seek, seek, if_neg hp, if_neg (hany ▸ hp)]
    exact C.pure hd

theorem collect_similar (hr : List.Forall₂ R ss ts) :
    C.Rel (fun p q => p.1 = q.1 ∧ List.Forall₂ R p.2 q.2) (collect ops shard ss)
      (collect ops' shard ts) := by
  induction hr with
  | nil => exact C.pure ⟨rfl, .nil⟩
  | cons hst _ ih =>
    rw [collect, collect]
    refine C.bind (h.seek shard hst) fun _ _ hst => ?_
    refine C.bind (takeFrom_remaining_similar h hst) fun _ _ hes => C.bind ih fun _ _ hrest => ?_
    exact C.pure ⟨by rw [hes.1, h.head hes.2, hrest.1], .cons hes.2 hrest.2⟩

omit h in
theorem combined_eq (hd : Alike R d e) (es : List Evidence) :
    d.combined shard es = e.combined shard es := by
  rw [combined, combined, hd.deferred]

theorem answerRest_similar (hd : Alike R d e) (es : List Evidence) :
    C.Rel (Both (Alike R)) (answer.answerRest ops shard d es)
      (answer.answerRest ops' shard e es) := by
  refine C.bind (collect_similar h hd.children) fun p q hpq => ?_
  refine C.bind (refill_similar h (hd.withChildren hpq.2)) fun d e hd => C.pure ?_
  exact ⟨by rw [hpq.1]; exact combined_eq hd _, hd⟩

theorem answerMerged_similar (hd : Alike R d e) :
    C.Rel (Both (Alike R)) (answer.answerMerged ops shard d)
      (answer.answerMerged ops' shard e) := by
  have hself : ∀ es, C.Rel (Both (Alike R)) (pure (d.combined shard es, d))
      (pure (e.combined shard es, e)) := fun es => C.pure ⟨combined_eq hd es, hd⟩
  rw [answer.answerMerged, answer.answerMerged, hd.head]
  split
  · split
    · exact answerRest_similar h hd _
    · split
      · exact hself _
      · split
        · exact hself _
        · exact answerRest_similar h hd _
  · exact answerRest_similar h hd _

theorem answer_similar (shard : ShardId) (hd : Alike R d e) :
    C.Rel (Both (Alike R)) (d.answer ops shard) (e.answer ops' shard) := by
  rw [answer, answer, hd.context]
  split
  · exact C.pure ⟨by rw [hd.deferred], hd⟩
  · exact answerMerged_similar h hd
  · exact answerMerged_similar h hd
  · exact C.pure ⟨rfl, hd⟩

theorem sort_similar (hr : List.Forall₂ R ss ts) :
    List.Forall₂ R (sort ops ss).1 (sort ops' ts).1 ∧ (sort ops ss).2 = (sort ops' ts).2 := by
  induction hr with
  | nil => exact ⟨.nil, rfl⟩
  | @cons s t ss ts hst _ ih =>
    obtain ⟨hchildren, hdeferred⟩ := ih
    have hcons : ops'.query t :: (sort ops ss).2 = ops'.query t :: (sort ops' ts).2 :=
      congrArg _ hdeferred
    rw [sort, sort, h.context hst, h.query hst]
    cases ops'.context t
    · exact ⟨.cons hst hchildren, hdeferred⟩
    · exact ⟨.cons hst hchildren, hdeferred⟩
    · exact ⟨hchildren, hdeferred⟩
    · exact ⟨hchildren, hcons⟩
    · exact ⟨hchildren, hdeferred⟩
    · exact ⟨hchildren, hcons⟩

theorem ofStreams_similar (q : Query) (hr : List.Forall₂ R ss ts) :
    C.Rel (Alike R) (ofStreams ops q ss) (ofStreams ops' q ts) := by
  obtain ⟨hchildren, hdeferred⟩ := sort_similar h hr
  have hempty := isEmpty_of_forall₂ hchildren
  refine refill_similar h ⟨rfl, ?_, hdeferred, rfl, hchildren⟩
  simp only [contextOf, hempty, hdeferred]

end Disjunction

/-! ### Conjunctions -/

namespace Conjunction

variable {i j : Conjunction σ}

structure Alike (R : σ → σ → Prop) (i j : Conjunction σ) : Prop where
  query : i.query = j.query
  context : i.context = j.context
  deferred : i.deferred = j.deferred
  head : i.head = j.head
  children : List.Forall₂ R i.children j.children
  asked : List.Forall₂ R i.asked j.asked

theorem Alike.withChildren (h : Alike R i j) (hr : List.Forall₂ R ss ts) :
    Alike R { i with children := ss } { j with children := ts } :=
  { h with children := hr }

variable (h : Similar C ops ops' W W' R)
include h

theorem heads?_similar (hr : List.Forall₂ R ss ts) : heads? ops ss = heads? ops' ts := by
  induction hr with
  | nil => rfl
  | cons hst _ ih => rw [heads?, heads?, h.head hst, ih]

theorem align_similar (hr : List.Forall₂ R ss ts) :
    C.Rel (fun p q => p.1 = q.1 ∧ List.Forall₂ R p.2 q.2) (align ops target ss)
      (align ops' target ts) := by
  induction hr with
  | nil => exact C.pure ⟨rfl, .nil⟩
  | cons hst hr ih =>
    rw [align, align, h.head hst]
    split
    · split
      · exact C.bind ih fun _ _ hpq => C.pure ⟨hpq.1, .cons hst hpq.2⟩
      · refine C.bind (h.seek target hst) fun s t hst => ?_
        rw [h.head hst]
        split
        · exact C.bind ih fun _ _ hpq => C.pure ⟨by rw [hpq.1], .cons hst hpq.2⟩
        · exact C.pure ⟨rfl, .cons hst hr⟩
    · exact C.pure ⟨rfl, .cons hst hr⟩

theorem takeAll_similar (hr : List.Forall₂ R ss ts) :
    C.Rel (fun p q => p.1 = q.1 ∧ List.Forall₂ R p.2 q.2) (takeAll ops target ss)
      (takeAll ops' target ts) := by
  induction hr with
  | nil => exact C.pure ⟨rfl, .nil⟩
  | cons hst _ ih =>
    rw [takeAll, takeAll, h.head hst]
    split
    · next c _ =>
      by_cases hc : c.shard = target
      · simp only [hc, if_true]
        refine C.bind (h.advance hst) fun _ _ hst => C.bind ih fun _ _ hpq => C.pure ?_
        exact ⟨by rw [hpq.1], .cons hst.2 hpq.2⟩
      · simp only [hc, if_false, pure_bind]
        exact C.bind ih fun _ _ hpq => C.pure ⟨by rw [hpq.1], .cons hst hpq.2⟩
    · exact C.bind ih fun _ _ hpq => C.pure ⟨hpq.1, .cons hst hpq.2⟩

theorem askAll_similar (hr : List.Forall₂ R ss ts) :
    C.Rel (fun p q => p.1 = q.1 ∧ List.Forall₂ R p.2 q.2) (askAll ops target ss)
      (askAll ops' target ts) := by
  induction hr with
  | nil => exact C.pure ⟨rfl, .nil⟩
  | cons hst hr ih =>
    rw [askAll, askAll]
    refine C.bind (h.answer target hst) fun p q hpq => ?_
    obtain ⟨c?, s⟩ := p
    obtain ⟨c?', t⟩ := q
    obtain ⟨rfl, hst⟩ := hpq
    dsimp only
    split
    · exact C.bind ih fun _ _ hpq => C.pure ⟨by rw [hpq.1], .cons hst hpq.2⟩
    · exact C.pure ⟨rfl, .cons hst hr⟩

theorem refillWithin_similar (n : Nat) (hj : Alike R i j) :
    C.Rel (Alike R) (i.refillWithin ops n) (j.refillWithin ops' n) := by
  induction n generalizing i j with
  | zero => exact C.pure { hj with head := rfl }
  | succ n ih =>
    rw [refillWithin, refillWithin, heads?_similar h hj.children]
    split
    · exact C.pure { hj with head := rfl }
    · refine C.bind (align_similar h hj.children) fun p q hpq => ?_
      obtain ⟨aligned, ss⟩ := p
      obtain ⟨aligned', ts⟩ := q
      obtain ⟨rfl, hst⟩ := hpq
      rcases aligned with _ | _ | _
      · exact C.pure { hj with head := rfl, children := hst }
      · exact ih (hj.withChildren hst)
      · refine C.bind (takeAll_similar h hst) fun p q hpq => ?_
        refine C.bind (askAll_similar h hj.asked) fun p' q' hpq' => ?_
        obtain ⟨answers, asked⟩ := p'
        obtain ⟨answers', asked'⟩ := q'
        obtain ⟨rfl, hasked⟩ := hpq'
        cases answers with
        | none => exact ih { hj with children := hpq.2, asked := hasked }
        | some answers =>
          have he : Evidence.conj (p.1 ++ answers) i.deferred =
              .conj (q.1 ++ answers) j.deferred := by rw [hpq.1, hj.deferred]
          dsimp only
          rw [he]
          split
          · exact ih { hj with children := hpq.2, asked := hasked }
          · exact C.pure { hj with children := hpq.2, asked := hasked, head := rfl }

theorem settled_of_alike (hij : Alike R i j) : i.Settled W ∧ j.Settled W' := by
  obtain ⟨hi, hj⟩ := h.settled_of_forall₂ hij.children
  obtain ⟨hi', hj'⟩ := h.settled_of_forall₂ hij.asked
  exact ⟨⟨hi, hi'⟩, hj, hj'⟩

theorem refill_similar (hij : Alike R i j) : C.Rel (Alike R) (i.refill ops) (j.refill ops') := by
  obtain ⟨hi, hj⟩ := settled_of_alike h hij
  let m := ops.remainingOfAll i.children
  let n := ops'.remainingOfAll j.children
  have hm : m < max m n + 1 := by omega
  have hn : n < max m n + 1 := by omega
  rw [refill, refill, refillWithin_eq h.left hi (Nat.lt_succ_self _) hm,
    refillWithin_eq h.right hj (Nat.lt_succ_self _) hn]
  exact refillWithin_similar h _ hij

theorem advance_similar (hij : Alike R i j) :
    C.Rel (Both (Alike R)) (i.advance ops) (j.advance ops') := by
  rw [advance, advance, hij.head]
  split
  · exact C.bind (refill_similar h hij) fun _ _ hij => C.pure ⟨rfl, hij⟩
  · exact C.pure ⟨rfl, hij⟩

theorem seek_similar (id : ShardId) (hij : Alike R i j) :
    C.Rel (Alike R) (i.seek ops id) (j.seek ops' id) := by
  have hany : (i.head.any fun c => Shard.precedes c.shard id) =
      j.head.any fun c => Shard.precedes c.shard id := by rw [hij.head]
  by_cases hp : (i.head.any fun c => Shard.precedes c.shard id) = true
  · rw [seek, seek, if_pos hp, if_pos (hany ▸ hp)]
    exact C.bind (mapM_seek_similar h id hij.children) fun _ _ hr =>
      refill_similar h (hij.withChildren hr)
  · rw [seek, seek, if_neg hp, if_neg (hany ▸ hp)]
    exact C.pure hij

theorem answer_similar (shard : ShardId) (hij : Alike R i j) :
    C.Rel (Both (Alike R)) (i.answer ops shard) (j.answer ops' shard) := by
  rw [answer, answer, hij.context]
  split
  · exact answerAt_similar Alike.head (advance_similar h) (seek_similar h) hij
  · exact C.pure ⟨by rw [hij.query], hij⟩
  · exact C.pure ⟨by rw [hij.query], hij⟩
  · exact C.pure ⟨rfl, hij⟩

theorem filter_context_similar (p : Context → Bool) (hr : List.Forall₂ R ss ts) :
    List.Forall₂ R (ss.filter fun s => p (ops.context s))
      (ts.filter fun t => p (ops'.context t)) := by
  induction hr with
  | nil => exact .nil
  | cons hst _ ih =>
    rw [List.filter_cons, List.filter_cons, h.context hst]
    split
    · exact .cons hst ih
    · exact ih

theorem any_context_similar (p : Context → Bool) (hr : List.Forall₂ R ss ts) :
    (ss.any fun s => p (ops.context s)) = ts.any fun t => p (ops'.context t) := by
  induction hr with
  | nil => rfl
  | cons hst _ ih => rw [List.any_cons, List.any_cons, h.context hst, ih]

theorem map_query_similar (hr : List.Forall₂ R ss ts) :
    ss.map ops.query = ts.map ops'.query := by
  induction hr with
  | nil => rfl
  | cons hst _ ih => rw [List.map_cons, List.map_cons, h.query hst, ih]

theorem ofStreams_similar (q : Query) (hr : List.Forall₂ R ss ts) :
    C.Rel (Alike R) (ofStreams ops q ss) (ofStreams ops' q ts) := by
  have hchildren := filter_context_similar h (fun c => c = .present || c = .pending) hr
  have hmixed := filter_context_similar h (fun c => c = .mixed) hr
  have hdeferred := map_query_similar h (filter_context_similar h (fun c => c = .delayed) hr)
  have hnothing : Alike R (nothing q) (nothing q) := ⟨rfl, rfl, rfl, rfl, .nil, .nil⟩
  rw [ofStreams, ofStreams, any_context_similar h (fun c => c = .absent) hr]
  dsimp only
  rw [isEmpty_of_forall₂ hchildren, isEmpty_of_forall₂ hmixed, hdeferred]
  split
  · exact C.pure hnothing
  · split
    · exact refill_similar h ⟨rfl, rfl, rfl, rfl, hchildren, hmixed⟩
    · split
      · exact refill_similar h ⟨rfl, rfl, rfl, rfl, hmixed, .nil⟩
      · split
        · exact C.pure ⟨rfl, rfl, rfl, rfl, .nil, .nil⟩
        · exact C.pure hnothing

end Conjunction

/-! ### Trees -/

structure LeafSimilar (C : Comparison) (R : Leaf → Leaf → Prop) : Prop where
  settled : ∀ {l m}, R l m → l.Settled ∧ m.Settled
  context : ∀ {l m}, R l m → l.context = m.context
  query : ∀ {l m}, R l m → l.query = m.query
  head : ∀ {l m}, R l m → l.head = m.head
  advance : ∀ {l m}, R l m → C.Rel (Both R) l.advance m.advance
  seek : ∀ {l m} id, R l m → C.Rel R (l.seek id) (m.seek id)

namespace Stream

variable {R : Leaf → Leaf → Prop} {s t : Stream} {ss ts : List Stream} {k m n : Nat}

inductive AlikeOver (R : Leaf → Leaf → Prop) (A : Stream → Stream → Prop) :
    Stream → Stream → Prop where
  | leaf {l m : Leaf} : R l m → AlikeOver R A (.leaf l) (.leaf m)
  | disjunction {d e : Disjunction Stream} :
      Disjunction.Alike A d e → AlikeOver R A (.disjunction d) (.disjunction e)
  | conjunction {i j : Conjunction Stream} :
      Conjunction.Alike A i j → AlikeOver R A (.conjunction i) (.conjunction j)

/-- Trees of at most the given height, the same but for leaves that behave alike. -/
def Alike (R : Leaf → Leaf → Prop) : Nat → Stream → Stream → Prop
  | 0 => fun _ _ => False
  | n + 1 => AlikeOver R (Alike R n)

theorem settled_of_alike (h : LeafSimilar C R) (hk : k ≤ n) (hst : Alike R k s t) :
    Settled n s ∧ Settled n t := by
  induction k generalizing n s t with
  | zero => cases hst
  | succ k ih =>
    obtain ⟨n, rfl⟩ := Nat.exists_eq_succ_of_ne_zero (by omega : n ≠ 0)
    have hall : ∀ {ss ts}, List.Forall₂ (Alike R k) ss ts →
        (∀ s ∈ ss, Settled n s) ∧ ∀ t ∈ ts, Settled n t := by
      intro ss ts hr
      induction hr with
      | nil => exact ⟨by simp, by simp⟩
      | cons hst _ ihr =>
        obtain ⟨hs, ht⟩ := ih (Nat.le_of_succ_le_succ hk) hst
        exact ⟨List.forall_mem_cons.mpr ⟨hs, ihr.1⟩, List.forall_mem_cons.mpr ⟨ht, ihr.2⟩⟩
    cases hst with
    | leaf hlm => exact h.settled hlm
    | disjunction hde => exact hall hde.children
    | conjunction hij =>
      obtain ⟨hi, hj⟩ := hall hij.children
      obtain ⟨hi', hj'⟩ := hall hij.asked
      exact ⟨⟨hi, hi'⟩, hj, hj'⟩

theorem context_of_alike (h : LeafSimilar C R) (hst : Alike R k s t) : s.context = t.context := by
  cases k with
  | zero => cases hst
  | succ k =>
    cases hst with
    | leaf hlm => exact h.context hlm
    | disjunction hde => exact hde.context
    | conjunction hij => exact hij.context

theorem answer_similar_leaf (h : LeafSimilar C R) {l m : Leaf} (id : ShardId) (hlm : R l m) :
    C.Rel (Both R) (l.answer id) (m.answer id) := by
  have hcontext := h.context hlm
  have hanswer : C.Rel (Both R) (answerAt Leaf.head Leaf.advance Leaf.seek id l)
      (answerAt Leaf.head Leaf.advance Leaf.seek id m) :=
    answerAt_similar h.head h.advance h.seek hlm
  have hnot := (h.settled hlm).1
  have hnot' := (h.settled hlm).2
  rw [Leaf.context, Leaf.context] at hcontext
  rw [Leaf.answer, Leaf.answer, h.query hlm]
  cases hl : l.state <;> cases hm : m.state <;> rw [hl, hm] at hcontext <;> first
    | exact absurd hl (hnot _)
    | exact hanswer
    | exact C.pure ⟨rfl, hlm⟩
    | cases hcontext

/-- Trees with leaves that behave alike behave alike, at any level. -/
theorem similar (h : LeafSimilar C R) (hn : k ≤ n) (hm : k ≤ m) :
    Similar C (opsWithin n) (opsWithin m) (Settled n) (Settled m) (Alike R k) := by
  induction k generalizing n m with
  | zero =>
    refine ⟨diminishing n, diminishing m, ?_, ?_, ?_, ?_, ?_, ?_, ?_⟩ <;> intros <;>
      simp_all only [Alike]
  | succ k ih =>
    obtain ⟨n, rfl⟩ := Nat.exists_eq_succ_of_ne_zero (by omega : n ≠ 0)
    obtain ⟨m, rfl⟩ := Nat.exists_eq_succ_of_ne_zero (by omega : m ≠ 0)
    have ih := ih (Nat.le_of_succ_le_succ hn) (Nat.le_of_succ_le_succ hm)
    constructor
    case left => exact diminishing _
    case right => exact diminishing _
    case settled =>
      exact fun hst => ⟨(settled_of_alike h hn hst).1, (settled_of_alike h hm hst).2⟩
    case context => exact fun {s t} hst => @context_of_alike C R s t (k + 1) h hst
    case query =>
      intro s t hst
      cases hst with
      | leaf hlm => exact h.query hlm
      | disjunction hde => exact hde.query
      | conjunction hij => exact hij.query
    case head =>
      intro s t hst
      cases hst with
      | leaf hlm => exact h.head hlm
      | disjunction hde => exact hde.head
      | conjunction hij => exact hij.head
    case advance =>
      intro s t hst
      cases hst with
      | leaf hlm => exact C.bind (h.advance hlm) fun _ _ hp => C.pure ⟨hp.1, .leaf hp.2⟩
      | disjunction hde =>
        exact C.bind (Disjunction.advance_similar ih hde) fun _ _ hp =>
          C.pure ⟨hp.1, .disjunction hp.2⟩
      | conjunction hij =>
        exact C.bind (Conjunction.advance_similar ih hij) fun _ _ hp =>
          C.pure ⟨hp.1, .conjunction hp.2⟩
    case seek =>
      intro s t id hst
      cases hst with
      | leaf hlm => exact C.map (h.seek id hlm) fun _ _ hp => .leaf hp
      | disjunction hde =>
        exact C.map (Disjunction.seek_similar ih id hde) fun _ _ hp => .disjunction hp
      | conjunction hij =>
        exact C.map (Conjunction.seek_similar ih id hij) fun _ _ hp => .conjunction hp
    case answer =>
      intro s t id hst
      cases hst with
      | leaf hlm =>
        exact C.bind (answer_similar_leaf h id hlm) fun _ _ hp => C.pure ⟨hp.1, .leaf hp.2⟩
      | disjunction hde =>
        exact C.bind (Disjunction.answer_similar ih id hde) fun _ _ hp =>
          C.pure ⟨hp.1, .disjunction hp.2⟩
      | conjunction hij =>
        exact C.bind (Conjunction.answer_similar ih id hij) fun _ _ hp =>
          C.pure ⟨hp.1, .conjunction hp.2⟩

/-! ### Levels -/

def SameLeaf (l m : Leaf) : Prop := l = m ∧ l.Settled

theorem leafSimilar_same : LeafSimilar .same SameLeaf where
  settled h := ⟨h.2, h.1 ▸ h.2⟩
  context h := by rw [h.1]
  query h := by rw [h.1]
  head h := by rw [h.1]
  advance {l m} h := by
    obtain ⟨rfl, hl⟩ := h
    exact ⟨rfl, rfl, rfl, Leaf.settled_advance hl⟩
  seek {l m} id h := by
    obtain ⟨rfl, hl⟩ := h
    exact ⟨rfl, rfl, Leaf.settled_seek hl id⟩

theorem alike_self (hs : Settled k s) : Alike SameLeaf k s s := by
  induction k generalizing s with
  | zero => cases hs
  | succ k ih =>
    cases s with
    | leaf l => exact .leaf ⟨rfl, hs⟩
    | disjunction d =>
      exact .disjunction ⟨rfl, rfl, rfl, rfl, List.forall₂_same.mpr fun s hs' => ih (hs s hs')⟩
    | conjunction j =>
      exact .conjunction ⟨rfl, rfl, rfl, rfl, List.forall₂_same.mpr fun s hs' => ih (hs.1 s hs'),
        List.forall₂_same.mpr fun s hs' => ih (hs.2 s hs')⟩

theorem eq_of_alike (hst : Alike SameLeaf k s t) : s = t := by
  induction k generalizing s t with
  | zero => cases hst
  | succ k ih =>
    have hall : ∀ {ss ts}, List.Forall₂ (Alike SameLeaf k) ss ts → ss = ts := by
      intro ss ts hr
      induction hr with
      | nil => rfl
      | cons hst _ ihr => rw [ih hst, ihr]
    cases hst with
    | leaf hlm => rw [hlm.1]
    | @disjunction d e hde =>
      obtain ⟨hq, hc, hd, hh, hr⟩ := hde
      cases d
      cases e
      simp_all only
      rw [hall hr]
    | @conjunction i j hij =>
      obtain ⟨hq, hc, hd, hh, hr, ha⟩ := hij
      cases i
      cases j
      simp_all only
      rw [hall hr, hall ha]

theorem similar_same (hn : k ≤ n) (hm : k ≤ m) :
    Similar .same (opsWithin n) (opsWithin m) (Settled n) (Settled m) (Alike SameLeaf k) :=
  similar leafSimilar_same hn hm

theorem advance_within (hs : Settled k s) (hn : k ≤ n) (hm : k ≤ m) :
    (opsWithin n).advance s = (opsWithin m).advance s := by
  obtain ⟨he, hv⟩ := (similar_same hn hm).advance (alike_self hs)
  exact Comparison.eq_of_same ⟨he, Prod.ext hv.1 (eq_of_alike hv.2)⟩

theorem seek_within (id : ShardId) (hs : Settled k s) (hn : k ≤ n) (hm : k ≤ m) :
    (opsWithin n).seek id s = (opsWithin m).seek id s := by
  obtain ⟨he, hv⟩ := (similar_same hn hm).seek id (alike_self hs)
  exact Comparison.eq_of_same ⟨he, eq_of_alike hv⟩

theorem answer_within (id : ShardId) (hs : Settled k s) (hn : k ≤ n) (hm : k ≤ m) :
    (opsWithin n).answer id s = (opsWithin m).answer id s := by
  obtain ⟨he, hv⟩ := (similar_same hn hm).answer id (alike_self hs)
  exact Comparison.eq_of_same ⟨he, Prod.ext hv.1 (eq_of_alike hv.2)⟩

theorem settled_mono (hs : Settled k s) (hk : k ≤ n) : Settled n s :=
  (settled_of_alike leafSimilar_same hk (alike_self hs)).1

theorem heightOfAll_le (h : ∀ s ∈ ss, s.height ≤ n) : heightOfAll ss ≤ n := by
  induction ss with
  | nil => exact Nat.zero_le n
  | cons s ss ih =>
    rw [heightOfAll]
    exact Nat.max_le.mpr ⟨h s List.mem_cons_self, ih fun t ht => h t (List.mem_cons_of_mem s ht)⟩

theorem height_of_settled (hs : Settled n s) : s.height ≤ n ∧ Settled s.height s := by
  induction n generalizing s with
  | zero => cases hs
  | succ n ih =>
    have hall : ∀ {ss : List Stream}, (∀ s ∈ ss, Settled n s) →
        heightOfAll ss ≤ n ∧ ∀ m, heightOfAll ss ≤ m → ∀ s ∈ ss, Settled m s := fun h =>
      ⟨heightOfAll_le fun s hs => (ih (h s hs)).1, fun m hm s hs =>
        settled_mono (ih (h s hs)).2 ((height_le_heightOfAll hs).trans hm)⟩
    cases s with
    | leaf l => exact ⟨Nat.le_add_left 1 n, hs⟩
    | disjunction d =>
      obtain ⟨hle, hd⟩ := hall hs
      rw [height, heightOfDisjunction]
      exact ⟨Nat.succ_le_succ hle, hd _ (Nat.le_refl _)⟩
    | conjunction j =>
      obtain ⟨hle, hj⟩ := hall hs.1
      obtain ⟨hle', hj'⟩ := hall hs.2
      rw [height, heightOfConjunction]
      exact ⟨Nat.succ_le_succ (Nat.max_le.mpr ⟨hle, hle'⟩), hj _ (Nat.le_max_left ..),
        hj' _ (Nat.le_max_right ..)⟩

theorem settled_heightOfAll (h : ∀ s ∈ ss, ∃ n, Settled n s) :
    ∀ s ∈ ss, Settled (heightOfAll ss) s := by
  intro s hs
  obtain ⟨n, hn⟩ := h s hs
  exact settled_mono (height_of_settled hn).2 (height_le_heightOfAll hs)

theorem advance_eq (hs : Settled n s) : s.advance = (opsWithin n).advance s := by
  obtain ⟨hle, hself⟩ := height_of_settled hs
  exact advance_within hself (Nat.le_refl _) hle

theorem seek_eq (id : ShardId) (hs : Settled n s) : s.seek id = (opsWithin n).seek id s := by
  obtain ⟨hle, hself⟩ := height_of_settled hs
  exact seek_within id hself (Nat.le_refl _) hle

theorem answer_eq (id : ShardId) (hs : Settled n s) :
    s.answer id = (opsWithin n).answer id s := by
  obtain ⟨hle, hself⟩ := height_of_settled hs
  exact answer_within id hself (Nat.le_refl _) hle

theorem disjunction_refill_within {d : Disjunction Stream} (hd : d.Settled (Settled k))
    (hn : k ≤ n) (hm : k ≤ m) : d.refill (opsWithin n) = d.refill (opsWithin m) := by
  have hself : Disjunction.Alike (Alike SameLeaf k) d d :=
    ⟨rfl, rfl, rfl, rfl, List.forall₂_same.mpr fun s hs => alike_self (hd s hs)⟩
  obtain ⟨he, hv⟩ := Disjunction.refill_similar (similar_same hn hm) hself
  have heq : (d.refill (opsWithin n)).value = (d.refill (opsWithin m)).value :=
    Stream.disjunction.inj (eq_of_alike (k := k + 1) (.disjunction hv))
  exact Comparison.eq_of_same ⟨he, heq⟩

theorem conjunction_refill_within {j : Conjunction Stream} (hj : j.Settled (Settled k))
    (hn : k ≤ n) (hm : k ≤ m) : j.refill (opsWithin n) = j.refill (opsWithin m) := by
  have hself : Conjunction.Alike (Alike SameLeaf k) j j :=
    ⟨rfl, rfl, rfl, rfl, List.forall₂_same.mpr fun s hs => alike_self (hj.1 s hs),
      List.forall₂_same.mpr fun s hs => alike_self (hj.2 s hs)⟩
  obtain ⟨he, hv⟩ := Conjunction.refill_similar (similar_same hn hm) hself
  have heq : (j.refill (opsWithin n)).value = (j.refill (opsWithin m)).value :=
    Stream.conjunction.inj (eq_of_alike (k := k + 1) (.conjunction hv))
  exact Comparison.eq_of_same ⟨he, heq⟩

end Stream

end ShardedSearch.Merge
