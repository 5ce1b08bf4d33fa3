import ShardedSearch.Lookup.Clause
import ShardedSearch.Proofs.Merge.Awaiting
import ShardedSearch.Proofs.Merge.Reading
import ShardedSearch.Proofs.Order.Matching

/-! # Making streams

What making the stream of a query comes to: a stream with a reading, unless a worker is
lost on the way. Merges are made of what their streams come to.
-/

namespace ShardedSearch

open Merge (Leaf LeafState Reading Stream Source)
open Merge.Stream (Making)

namespace Merge.Reading

def listed : List Candidate → Reading
  | [] => absent
  | c :: cs => present (Candidate.evidenceAt (c :: cs))

end Merge.Reading

namespace Merge.Stream

variable {lost : Prop} {q : Query} {r : Reading} {rs : List Reading} {cs : List Candidate}
variable {s : Stream} {ss : List Stream}

/-- Looking up a stream comes to one with a reading, unless a worker is lost. -/
def Yields (lost : Prop) (m : Making Stream) (r : Reading) : Prop :=
  (lost ∧ ∃ f, m = throw f) ∨ ∃ s, m = pure s ∧ s.Realises r

def Makes (lost : Prop) (m : Making Stream) (r : Reading) : Prop :=
  (lost ∧ ∃ f, m = throw f) ∨ ∃ s, m = pure s ∧ s.context ≠ .skipped ∧ Yields lost s.await r

theorem realises_absent : (Lookup.leaf q .absent).Realises .absent := ⟨rfl, _, rfl⟩

theorem yields_absent : Yields lost (await (Lookup.leaf q .absent)) .absent :=
  .inr ⟨Lookup.leaf q .absent, rfl, realises_absent⟩

theorem yields_delayed (hq : q.IsFlat) :
    Yields lost (await (Lookup.leaf q .delayed)) (.delayed q) :=
  .inr ⟨Lookup.leaf q .delayed, rfl, rfl, rfl, hq⟩

theorem yields_ofList (hcs : Candidate.IsListing cs) :
    Yields lost (await (Lookup.leaf q (.pending ⟨none, .ok (.ofList cs)⟩))) (.listed cs) := by
  cases cs with
  | nil => exact .inr ⟨Lookup.leaf q .absent, rfl, realises_absent⟩
  | cons c cs =>
    exact .inr ⟨Lookup.leaf q (.present (some c) (.ofList cs)), rfl, rfl, c :: cs, ⟨hcs, rfl⟩,
      fun _ => rfl⟩

theorem yields_store (hq : q.IsFlat) (e : Store.StoreError) :
    Yields lost (await (Lookup.leaf q (.pending ⟨none, .error (.store e)⟩))) (.delayed q) :=
  .inr ⟨Lookup.leaf q .delayed, rfl, rfl, rfl, hq⟩

theorem yields_abandoned (hl : lost) :
    Yields lost (await (Lookup.leaf q (.pending ⟨none, .error .abandoned⟩))) r :=
  .inl ⟨hl, _, rfl⟩

theorem awaitAll_of_yields (h : List.Forall₂ (fun s r => Yields lost s.await r) ss rs) :
    (lost ∧ ∃ f, awaitAll ss = throw f) ∨
      ∃ ss', awaitAll ss = pure ss' ∧ List.Forall₂ Realises ss' rs := by
  induction h with
  | nil => exact .inr ⟨[], rfl, .nil⟩
  | @cons s r ss rs hs hss ih =>
    rw [awaitAll]
    rcases hs with ⟨hl, f, hs⟩ | ⟨s', hs, hr⟩
    · exact .inl ⟨hl, f, by rw [hs]; rfl⟩
    · rcases ih with ⟨hl, f, hss⟩ | ⟨ss', hss, hrs⟩
      · exact .inl ⟨hl, f, by rw [hs, hss]; rfl⟩
      · exact .inr ⟨s' :: ss', by rw [hs, hss]; rfl, .cons hr hrs⟩

theorem lost_of_yields (h : Yields lost s.await r) (hs : s.isLost = true) : lost := by
  rcases h with ⟨hl, -⟩ | ⟨s', hawait, -⟩
  · exact hl
  · have hrun := congrArg (·.run.value) ((await_of_isLost hs).symm.trans hawait)
    cases hrun

theorem resolveAll_of_yields {p : WorkerPool} (hp : p.Serves)
    (h : List.Forall₂ (fun s r => Yields lost s.await r) ss rs) :
    (lost ∧ ∃ f, resolveAll (some p) ss = throw f) ∨
      ∃ ss', resolveAll (some p) ss = pure ss' ∧ List.Forall₂ Realises ss' rs := by
  rw [resolveAll]
  split
  · next f hf =>
    obtain ⟨s, hs, hlost⟩ := exists_isLost_of_obstacle? hp hf
    obtain ⟨r, -, hr⟩ := exists_right_of_forall₂ h s hs
    exact .inl ⟨lost_of_yields hr hlost, f, rfl⟩
  · exact awaitAll_of_yields h

end Merge.Stream

namespace Lookup

open Merge.Stream

variable {x : LookupContext} {lost : Prop} {q : Query} {rs : List Reading} {ss : List Stream}

theorem exists_leaf_equality (x : LookupContext) (place : Place) (q : Query) (field : String)
    (literal : Option String) : ∃ l, equality x place q field literal = .leaf l := by
  unfold equality
  split
  · exact ⟨_, rfl⟩
  · split
    · exact ⟨_, rfl⟩
    · split
      · exact ⟨_, rfl⟩
      · split
        · exact ⟨_, rfl⟩
        · split <;> exact ⟨_, rfl⟩

/-! ### Enumerations -/

theorem exists_of_enumeration {cs? : Option (List Candidate)} {s : Stream}
    (h : enumeration q cs? = .ok s) : ∃ cs, cs? = some cs ∧ s = .leaf (.ofList q cs) := by
  cases cs? with
  | none => cases h
  | some cs => exact ⟨cs, rfl, (Except.ok.inj h).symm⟩

theorem eq_of_exceeded {s : Stream} (h : exceeded x q = .ok s) :
    s = .leaf (.ofList q (shardsOfDays q x.config.days x.counts)) := by
  rw [exceeded] at h
  split at h
  · cases h
  · obtain ⟨cs, hcs, rfl⟩ := exists_of_enumeration h
    rw [shardsOfDays?_eq_some hcs]

theorem eq_of_hinted {hint : String} {counts : Index.ShardCounts} {s : Stream}
    (h : enumeration q (hinted? q hint counts) = .ok s) :
    s = .leaf (.ofList q (hinted q hint counts)) := by
  obtain ⟨cs, hcs, rfl⟩ := exists_of_enumeration h
  rw [hinted?_eq_some hcs]

/-! ### Merges -/

theorem absent_or_self {s t : Stream} {r : Reading} (hs : s.Realises r)
    (ht : t.Realises .absent) :
    (if s.context = .absent then t else s).Realises r := by
  split
  · next h =>
    rw [context_of_realises hs] at h
    cases r <;> first | exact ht | simp [Reading.context] at h
  · exact hs

theorem await_of_realises {s : Stream} {r : Reading} (h : s.Realises r) : s.await = pure s := by
  match s, h with
  | .leaf ⟨q, .pending l⟩, h =>
    have := context_of_realises h
    cases r <;> simp [Stream.context, Leaf.context, Reading.context] at this
  | .leaf ⟨q, .present ..⟩, _ => rfl
  | .leaf ⟨q, .absent⟩, _ => rfl
  | .leaf ⟨q, .skipped⟩, _ => rfl
  | .leaf ⟨q, .delayed⟩, _ => rfl
  | .disjunction _, _ => rfl
  | .conjunction _, _ => rfl

theorem context_ne_skipped {s : Stream} {r : Reading} (h : s.Realises r) :
    s.context ≠ .skipped := by
  rw [context_of_realises h]
  cases r <;> simp [Reading.context]

theorem makes_pure {s : Stream} {r : Reading} (h : s.Realises r) : Makes lost (pure s) r :=
  .inr ⟨s, rfl, context_ne_skipped h, .inr ⟨s, await_of_realises h, h⟩⟩

theorem serves_pool (x : LookupContext) : (pool x).Serves := WorkerPool.serves_start ..

/-- The disjunction of streams that have been looked up, or a leaf in place of it. -/
def joinAny (q : Query) (ss : List Stream) : Raising Stream := do
  let d ← Merge.Disjunction.ofStreams (Stream.opsFor ss) q ss
  pure (match d.context with
    | .absent => leaf q .absent
    | .delayed => leaf q .delayed
    | _ => .disjunction d)

def joinAll (q : Query) (ss : List Stream) : Raising Stream := do
  let j ← Merge.Conjunction.ofStreams (Stream.opsFor ss) q ss
  pure (if j.context = .absent then leaf q .absent else .conjunction j)

theorem disjunction_eq : disjunction x q ss = (do
    let ts ← Stream.resolveAll (some (pool x)) ss
    liftM (joinAny q ts)) := by
  cases ss with
  | nil =>
    rw [resolveAll_of_ne_pending (by simp)]
    rfl
  | cons s ss =>
    change Stream.anyOf q (s :: ss) (some (pool x)) >>= _ = _
    rw [Stream.anyOf, bind_assoc]
    refine bind_congr fun ts => ?_
    rw [joinAny, liftM_bind]
    refine bind_congr fun d => ?_
    cases d.context <;> rfl

theorem conjunction_eq : conjunction x q ss = (do
    let ts ← Stream.resolveAll (some (pool x)) ss
    liftM (joinAll q ts)) := by
  cases ss with
  | nil =>
    rw [resolveAll_of_ne_pending (by simp)]
    rfl
  | cons s ss =>
    change Stream.allOf q (s :: ss) (some (pool x)) >>= _ = _
    rw [Stream.allOf, bind_assoc]
    refine bind_congr fun ts => ?_
    rw [joinAll, liftM_bind]
    rfl

theorem makes_bind {m : Making (List Stream)} {f : List Stream → Making Stream} {r : Reading}
    (hm : (lost ∧ ∃ f, m = throw f) ∨
      ∃ ss, m = pure ss ∧ List.Forall₂ (fun s r => Yields lost s.await r) ss rs)
    (hf : ∀ ss, List.Forall₂ (fun s r => Yields lost s.await r) ss rs → Makes lost (f ss) r) :
    Makes lost (m >>= f) r := by
  rcases hm with ⟨hl, f, rfl⟩ | ⟨ss, rfl, hss⟩
  · exact .inl ⟨hl, f, rfl⟩
  · rw [pure_bind]
    exact hf ss hss

theorem makes_conjunction (h : List.Forall₂ (fun s r => Yields lost s.await r) ss rs)
    (hq : q.IsFlat) : Makes lost (conjunction x q ss) (Reading.all q rs) := by
  rw [conjunction_eq]
  rcases resolveAll_of_yields (serves_pool x) h with ⟨hl, f, hss⟩ | ⟨ss', hss, hrs⟩
  · exact .inl ⟨hl, f, by rw [hss]; rfl⟩
  · obtain ⟨j, hj, hr⟩ := conjunction_of_realises hrs hq
    rw [hss, pure_bind, joinAll, hj]
    exact makes_pure (absent_or_self hr realises_absent)

theorem eq_of_any_eq_delayed {p : Query} (h : Reading.any q rs = .delayed p) : p = q := by
  unfold Reading.any at h
  split at h <;> simp at h
  exact h.symm

theorem makes_disjunction (h : List.Forall₂ (fun s r => Yields lost s.await r) ss rs)
    (hq : q.IsFlat) : Makes lost (disjunction x q ss) (Reading.any q rs) := by
  rw [disjunction_eq]
  rcases resolveAll_of_yields (serves_pool x) h with ⟨hl, f, hss⟩ | ⟨ss', hss, hrs⟩
  · exact .inl ⟨hl, f, by rw [hss]; rfl⟩
  · obtain ⟨d, hd, hctx, hr⟩ := disjunction_of_realises hrs hq
    rw [hss, pure_bind, joinAny, hd, pure_bind, liftM_pure]
    refine makes_pure ?_
    rw [hctx] at hr ⊢
    cases hany : Reading.any q rs with
    | absent => exact realises_absent
    | delayed p =>
      obtain rfl := eq_of_any_eq_delayed hany
      exact ⟨rfl, rfl, hq⟩
    | present f =>
      rw [hany] at hr
      exact hr (by simp [Reading.context])
    | mixed p g =>
      rw [hany] at hr
      exact hr (by simp [Reading.context])

end Lookup

end ShardedSearch
