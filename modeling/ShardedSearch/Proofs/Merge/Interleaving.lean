import ShardedSearch.Proofs.Merge.Draining
import ShardedSearch.Proofs.Merge.Made

/-! # Interleaved operations

Who reads a stream may look at it, advance it, seek in it and ask it in any order. Whatever was
done in between, the shards that advances return are in the order of the leaves.
-/

namespace ShardedSearch.Merge

variable {σ : Type} {ops : StreamOps σ} {W : σ → Prop} {L P : ShardId → Prop}
variable {R : ShardId → ShardId → Prop} {id : ShardId}

theorem Disjunction.track_answer {d : Disjunction σ} (hd : Diminishing ops W) (hR : Spacing L R)
    (h : d.Track ops W L R P) : (d.answer ops id).value.2.Track ops W L R P := by
  rcases answer_cases ops id d with heq | heq
  · rwa [heq]
  · rw [heq]
    exact track_refill hd hR
      (track_of_forall₂ hd (collect_moves (moves_reaches ops) id d.children) h.children)

theorem Conjunction.track_answer {j : Conjunction σ} (hd : Diminishing ops W) (hR : Spacing L R)
    (hP : ∀ {a b}, L a → L b → P a → Shard.covers a b = true → P b)
    (h : j.Track ops W L R P) : (j.answer ops id).value.2.Track ops W L R P := by
  have hkeep : ∀ {j k : Conjunction σ}, j.Track ops W L R P →
      (k = (j.advance ops).value.2 ∨ ∃ id, k = (j.seek ops id).value) →
      k.Track ops W L R P := fun hj hk => by
    rcases track_step hd hP hR hj hk with rfl | ⟨hself, -⟩
    · exact hj
    · exact hself
  exact keeps_answer (fun _ hj => hkeep hj (.inl rfl)) (fun _ hj => hkeep hj (.inr ⟨_, rfl⟩)) h

/-! ### Leaves that are not looked up yet -/

namespace Leaf

variable (l : Leaf)

theorem resolve_resolve : l.resolve.value.resolve = pure l.resolve.value :=
  resolve_of_settled l.settled_resolve

theorem advance_resolve : l.resolve.value.advance.value = l.advance.value := by
  rw [advance, advance, resolve_resolve]
  rfl

theorem seek_resolve (id : ShardId) : (l.resolve.value.seek id).value = (l.seek id).value := by
  rw [seek, seek, resolve_resolve]
  rfl

/-- Asking leaves a leaf as seeking and advancing would, whether it has a position or not. -/
theorem answer_leaves (id : ShardId) :
    (l.answer id).value.2 = (answerAt head advance seek id l).value.2 := by
  have hstays : l.Settled → l.head = none →
      l = (answerAt head advance seek id l).value.2 := fun hl hc => by
    rw [answerAt, seek_of_head_eq_none hl hc, pure_bind, hc]
    rfl
  obtain ⟨q, state⟩ := l
  cases state with
  | pending => rfl
  | present => rfl
  | absent => exact hstays (fun _ he => by cases he) rfl
  | skipped => exact hstays (fun _ he => by cases he) rfl
  | delayed => exact hstays (fun _ he => by cases he) rfl

theorem answer_resolve (id : ShardId) :
    (l.resolve.value.answer id).value.2 = (l.answer id).value.2 := by
  rw [answer_leaves, answer_leaves, answerAt, answerAt, Raising.value_bind, Raising.value_bind,
    seek_resolve]

end Leaf

namespace Stream

variable {s : Stream} {k : Nat} {c : Candidate}

/-! ### Operations -/

inductive Operation where
  | peek
  | advance
  | seek (id : ShardId)
  | answer (id : ShardId)

namespace Operation

def apply : Operation → Stream → Stream
  | peek, s => s.resolve.value
  | advance, s => s.advance.value.2
  | seek id, s => (s.seek id).value
  | answer id, s => (s.answer id).value.2

def returned : Operation → Stream → Option Candidate
  | advance, s => s.advance.value.1
  | _, _ => none

end Operation

/-- The shards that advances return in the course of some operations. -/
def emitted : List Operation → Stream → List ShardId
  | [], _ => []
  | o :: os, s => ((o.returned s).map (·.shard)).toList ++ emitted os (o.apply s)

theorem Operation.apply_resolve (o : Operation) (s : Stream) :
    o.apply s.resolve.value = o.apply s ∧ o.returned s.resolve.value = o.returned s := by
  cases s with
  | leaf l =>
    have hadvance : (Stream.leaf l.resolve.value).advance.value = (Stream.leaf l).advance.value :=
      congrArg (fun p => (p.1, Stream.leaf p.2)) l.advance_resolve
    cases o with
    | peek =>
      have hself : l.resolve.value.resolve.value = l.resolve.value := by
        rw [Leaf.resolve_resolve]
        rfl
      exact ⟨congrArg leaf hself, rfl⟩
    | advance => exact ⟨congrArg Prod.snd hadvance, congrArg Prod.fst hadvance⟩
    | seek id => exact ⟨congrArg leaf (l.seek_resolve id), rfl⟩
    | answer id => exact ⟨congrArg leaf (l.answer_resolve id), rfl⟩
  | _ => exact ⟨rfl, rfl⟩

theorem emitted_resolve (os : List Operation) (s : Stream) :
    emitted os s.resolve.value = emitted os s := by
  cases os with
  | nil => rfl
  | cons o os =>
    obtain ⟨happly, hreturned⟩ := o.apply_resolve s
    rw [emitted, emitted, happly, hreturned]

section Steps

variable (hR : Spacing L R)
include hR

theorem Held.of_step {t : Stream} (h : Held k L R P s) (hstep : Step (opsWithin (k + 1)) s t) :
    Held k L R P t := by
  rcases h.step hR hstep with rfl | ⟨hself, -⟩
  · exact h
  · exact hself

theorem Held.answer (h : Held k L R P s) :
    Held k L R P ((opsWithin (k + 1)).answer id s).value.2 := by
  refine ⟨(diminishing (k + 1)).keeps_answer id h.settled, ?_⟩
  cases s with
  | leaf l =>
    change Track k L R P (leaf (l.answer id).value.2)
    rw [Leaf.answer_leaves]
    have hadvance : ∀ l, Held k L R P (leaf l) → Held k L R P (leaf l.advance.value.2) :=
      fun l hl => hl.of_step hR .advance
    have hseek : ∀ l, Held k L R P (leaf l) → Held k L R P (leaf (l.seek id).value) :=
      fun l hl => hl.of_step hR (.seek id)
    exact (keeps_answerAt (W := fun l => Held k L R P (leaf l)) hadvance hseek h).track
  | disjunction d => exact Disjunction.track_answer (diminishing k) hR h.track
  | conjunction j =>
    obtain ⟨hP, hj⟩ := h.track
    exact ⟨hP, Conjunction.track_answer (diminishing k) hR hP hj⟩

/-- Every operation leaves a tree in order, with only what it had before. -/
theorem Held.apply (o : Operation) (h : Held k L R P s) : Held k L R P (o.apply s) := by
  cases o with
  | peek =>
    rw [Operation.apply, resolve_of_settled h.settled]
    exact h
  | advance =>
    rw [Operation.apply, advance_eq h.settled]
    exact h.of_step hR .advance
  | seek id =>
    rw [Operation.apply, seek_eq id h.settled]
    exact h.of_step hR (.seek id)
  | answer id =>
    rw [Operation.apply, answer_eq id h.settled]
    exact h.answer hR

/-- What an advance returns was in view, and only what may follow it is left. -/
theorem Held.returned {o : Operation} (h : Held k L R P s) (hc : o.returned s = some c) :
    P c.shard ∧ Held k L R (R c.shard) (o.apply s) := by
  cases o with
  | advance =>
    rw [Operation.returned, taken h.settled] at hc
    rw [Operation.apply, advance_eq h.settled]
    refine ⟨(h.track.head hc).2, ?_⟩
    rcases h.step hR .advance with heq | ⟨-, hbehind⟩
    · have hlt := (diminishing (k + 1)).remaining_advance h.settled c hc
      rw [heq] at hlt
      exact absurd hlt (Nat.lt_irrefl _)
    · exact hbehind c hc
  | _ => cases hc

/-- Of the shards that advances return, each may follow those before. -/
theorem Held.emitted (os : List Operation) (h : Held k L R P s) :
    (∀ id ∈ emitted os s, P id) ∧ (emitted os s).Pairwise R := by
  induction os generalizing s P with
  | nil => exact ⟨fun id hid => absurd hid List.not_mem_nil, .nil⟩
  | cons o os ih =>
    have hrest := ih (h.apply hR o)
    rw [Stream.emitted]
    cases hc : o.returned s with
    | none => exact hrest
    | some c =>
      obtain ⟨hP, hbehind⟩ := h.returned hR hc
      exact ⟨List.forall_mem_cons.mpr ⟨hP, hrest.1⟩, List.pairwise_cons.mpr (ih hbehind)⟩

theorem Ordered.apply (o : Operation) (h : s.Ordered L R) : (o.apply s).Ordered L R := by
  obtain ⟨k, hk⟩ := h
  exact ⟨k, fun n hn => (hk n hn).apply hR o⟩

theorem Ordered.pairwise_emitted (os : List Operation) (h : s.resolve.value.Ordered L R) :
    (Stream.emitted os s).Pairwise R := by
  obtain ⟨k, hk⟩ := h
  rw [← emitted_resolve]
  exact ((hk k (Nat.le_refl k)).emitted hR os).2

end Steps

/-! ### Built streams -/

/-- Streams that are built by merges, on a pool of workers or not, from leaves that name their
shards in strictly ascending order. They may have been read before. -/
inductive IsBuilt : Stream → Prop where
  | leaf {l : Leaf} : l.resolve.value.shards.Pairwise (· < ·) → IsBuilt (.leaf l)
  | anyOf {q : Query} {ss : List Stream} {pool : Option WorkerPool} {d : Disjunction Stream} :
      (∀ s ∈ ss, IsBuilt s) → (anyOf q ss pool).run.value = .ok d → IsBuilt (.disjunction d)
  | allOf {q : Query} {ss : List Stream} {pool : Option WorkerPool} {j : Conjunction Stream} :
      (∀ s ∈ ss, IsBuilt s) → (allOf q ss pool).run.value = .ok j → IsBuilt (.conjunction j)
  | read {s : Stream} (o : Operation) : IsBuilt s → IsBuilt (o.apply s)

theorem IsBuilt.ordered (h : s.IsBuilt) :
    s.resolve.value.Ordered (fun _ => True) (· < ·) := by
  induction h with
  | @leaf l hl => exact ordered_leaf l.settled_resolve ⟨fun _ _ => trivial, hl⟩
  | anyOf _ hd ih => exact ordered_anyOf spacing_lt (fun s hs => makesOrdered_await (ih s hs)) hd
  | allOf _ hj ih => exact ordered_allOf spacing_lt (fun s hs => makesOrdered_await (ih s hs)) hj
  | @read s o _ ih =>
    have hread := ih.apply spacing_lt o
    rw [(o.apply_resolve s).1] at hread
    obtain ⟨k, hk⟩ := hread
    rw [resolve_of_settled (hk k (Nat.le_refl k)).settled]
    exact ⟨k, hk⟩

end Stream

end ShardedSearch.Merge
