import ShardedSearch.Proofs.Merge.Awaiting
import ShardedSearch.Proofs.Merge.Spacing

/-! # Trees made of ordered streams

Merges of streams that come in order once they are looked up are in order, whether they are
looked up on a pool of workers or not.
-/

namespace ShardedSearch.Merge.Stream

variable {L : ShardId → Prop} {R : ShardId → ShardId → Prop} {s : Stream} {q : Query}

def MakesOrdered (L : ShardId → Prop) (R : ShardId → ShardId → Prop) (m : Making Stream) : Prop :=
  ∀ s, m.run.value = .ok s → s.Ordered L R

theorem makesOrdered_await (h : s.resolve.value.Ordered L R) : MakesOrdered L R s.await := by
  intro t ht
  rw [await] at ht
  split at ht
  · cases ht
  · obtain rfl := Except.ok.inj ht
    exact h

theorem makesOrdered_leaf {l : Leaf}
    (h : (∀ id ∈ l.resolve.value.shards, L id) ∧ l.resolve.value.shards.Pairwise R) :
    MakesOrdered L R (Stream.leaf l).await :=
  makesOrdered_await (ordered_leaf l.settled_resolve h)

theorem ordered_resolveAll {pool : Option WorkerPool} {ss ts : List Stream}
    (h : (resolveAll pool ss).run.value = .ok ts) (hs : ∀ s ∈ ss, MakesOrdered L R s.await) :
    ∀ t ∈ ts, t.Ordered L R := by
  have hst := forall₂_of_resolveAll h
  clear h
  induction hst with
  | nil => simp
  | @cons s t ss ts ht _ ih =>
    exact List.forall_mem_cons.mpr ⟨hs s List.mem_cons_self t ht,
      ih fun s' hs' => hs s' (List.mem_cons_of_mem s hs')⟩

theorem mem_sort {σ : Type} (ops : StreamOps σ) {ss : List σ} :
    ∀ s ∈ (Disjunction.sort ops ss).1, s ∈ ss := by
  induction ss with
  | nil => exact fun s hs => hs
  | cons s ss ih =>
    rw [Disjunction.sort]
    dsimp only
    split
    · exact List.forall_mem_cons.mpr
        ⟨List.mem_cons_self, fun t ht => List.mem_cons_of_mem s (ih t ht)⟩
    · exact List.forall_mem_cons.mpr
        ⟨List.mem_cons_self, fun t ht => List.mem_cons_of_mem s (ih t ht)⟩
    all_goals exact fun t ht => List.mem_cons_of_mem s (ih t ht)

section Merges

variable {pool : Option WorkerPool} {ss : List Stream} (hR : Spacing L R)
include hR

theorem ordered_ofStreams_disjunction (h : ∀ s ∈ ss, s.Ordered L R) :
    (Stream.disjunction (Disjunction.ofStreams (opsFor ss) q ss).value).Ordered L R :=
  ordered_disjunction hR h (mem_sort _)

theorem ordered_ofStreams_conjunction (h : ∀ s ∈ ss, s.Ordered L R) :
    (Stream.conjunction (Conjunction.ofStreams (opsFor ss) q ss).value).Ordered L R := by
  have hmem : ∀ {p : Stream → Bool}, ∀ s ∈ ss.filter p, s ∈ ss := fun s hs =>
    (List.mem_filter.mp hs).1
  have hnone : ∀ {t : Stream}, t ∈ ([] : List Stream) → t ∈ ss := fun ht =>
    absurd ht List.not_mem_nil
  -- without streams there is nothing to bring into view
  have hempty : ∀ context deferred, (Stream.conjunction
      ⟨q, context, [], [], deferred, none⟩).Ordered L R := fun context deferred =>
    ordered_conjunction (j := ⟨q, context, [], [], deferred, none⟩) hR h (fun _ => hnone)
      (fun _ => hnone)
  unfold Conjunction.ofStreams
  split
  · exact hempty _ _
  · dsimp only
    split
    · exact ordered_conjunction hR h hmem hmem
    · split
      · exact ordered_conjunction hR h hmem fun _ => hnone
      · split
        · exact hempty _ _
        · exact hempty _ _

theorem ordered_anyOf {d : Disjunction Stream} (hs : ∀ s ∈ ss, MakesOrdered L R s.await)
    (h : (anyOf q ss pool).run.value = .ok d) : (Stream.disjunction d).Ordered L R := by
  rw [anyOf] at h
  obtain ⟨ts, hts, hd⟩ := exists_of_bind h
  obtain rfl := Except.ok.inj hd
  exact ordered_ofStreams_disjunction hR (ordered_resolveAll hts hs)

theorem ordered_allOf {j : Conjunction Stream} (hs : ∀ s ∈ ss, MakesOrdered L R s.await)
    (h : (allOf q ss pool).run.value = .ok j) : (Stream.conjunction j).Ordered L R := by
  rw [allOf] at h
  obtain ⟨ts, hts, hj⟩ := exists_of_bind h
  obtain rfl := Except.ok.inj hj
  exact ordered_ofStreams_conjunction hR (ordered_resolveAll hts hs)

end Merges

end ShardedSearch.Merge.Stream
