import ShardedSearch.Merge.Ops
import ShardedSearch.Proofs.Candidate.Listing

/-! # Emission of streams

A stream emits a listing if its candidate in view is the first one and each operation
leaves a stream that emits what is left. Streams without a position give an answer for
every shard, as long as they are asked in ascending order. Listings have shards only; a
shard covers no other. The queries of a listing are all of one kind, such as the flat ones.
-/

namespace ShardedSearch

namespace Shard

variable {id target : ShardId}

theorem covers_of_isDay_eq_false (h : isDay id = false) : covers id target = false := by
  rw [covers, h, Bool.false_and]

theorem precedes_of_isDay_eq_false (h : isDay id = false) :
    precedes id target = decide (id < target) := by
  rw [precedes, covers_of_isDay_eq_false h, Bool.not_false, Bool.and_true]

end Shard

namespace Candidate

/-- Shards in strictly ascending order with queries of one kind. -/
structure ListingOf (kind : Query → Prop) (cs : List Candidate) : Prop where
  ascending : Ascending cs
  numbered : ∀ c ∈ cs, Shard.isDay c.shard = false
  ofKind : ∀ c ∈ cs, kind c.evidence.query

abbrev IsListing : List Candidate → Prop := ListingOf Query.IsFlat

variable {kind : Query → Prop} {c : Candidate} {cs : List Candidate} {id : ShardId} {e : Evidence}

namespace ListingOf

theorem nil : ListingOf kind [] := ⟨.nil, by simp, by simp⟩

theorem cons (h : ListingOf kind cs) (hday : Shard.isDay c.shard = false)
    (hkind : kind c.evidence.query) (hlt : ∀ b ∈ cs, c.shard < b.shard) :
    ListingOf kind (c :: cs) :=
  ⟨List.pairwise_cons.mpr ⟨hlt, h.ascending⟩, List.forall_mem_cons.mpr ⟨hday, h.numbered⟩,
    List.forall_mem_cons.mpr ⟨hkind, h.ofKind⟩⟩

theorem sublist {ds : List Candidate} (h : ListingOf kind cs) (hs : ds.Sublist cs) :
    ListingOf kind ds :=
  ⟨h.ascending.sublist hs, fun c hc => h.numbered c (hs.subset hc),
    fun c hc => h.ofKind c (hs.subset hc)⟩

theorem tail (h : ListingOf kind cs) : ListingOf kind cs.tail := h.sublist (List.tail_sublist cs)

theorem onward (h : ListingOf kind cs) : ListingOf kind (onward id cs) :=
  h.sublist List.filter_sublist

theorem beyond (h : ListingOf kind cs) : ListingOf kind (beyond id cs) :=
  h.sublist List.filter_sublist

theorem ofKind_of_evidenceAt (h : ListingOf kind cs) (he : evidenceAt cs id = some e) :
    kind e.query :=
  h.ofKind _ ((evidenceAt_eq_some_iff h.ascending).mp he)

end ListingOf

theorem exists_listingOf (ids : List ShardId) (f : ShardId → Option Evidence)
    (h : ∀ id e, f id = some e → id ∈ ids ∧ Shard.isDay id = false ∧ kind e.query) :
    ∃ cs, ListingOf kind cs ∧ ∀ id, evidenceAt cs id = f id := by
  obtain ⟨cs, hcs, hf⟩ := exists_ascending ids f fun id e he => (h id e he).1
  have hm : ∀ c ∈ cs, f c.shard = some c.evidence := fun c hc =>
    (hf c.shard).symm.trans ((evidenceAt_eq_some_iff hcs).mpr hc)
  exact ⟨cs, ⟨hcs, fun c hc => (h _ _ (hm c hc)).2.1, fun c hc => (h _ _ (hm c hc)).2.2⟩, hf⟩

end Candidate

namespace Merge

open Candidate

variable {σ : Type} {kind : Query → Prop}

/-- Streams with a position: what each of them emits determines what its operations do. -/
structure Emitting (kind : Query → Prop) (ops : StreamOps σ)
    (Emits : σ → List Candidate → Prop) : Prop where
  listing : ∀ {s cs}, Emits s cs → ListingOf kind cs
  head : ∀ {s cs}, Emits s cs → ops.head s = cs.head?
  advance : ∀ {s cs}, Emits s cs → ∃ s', ops.advance s = pure (cs.head?, s') ∧ Emits s' cs.tail
  seek : ∀ {s cs} id, Emits s cs → ∃ s', ops.seek id s = pure s' ∧ Emits s' (onward id cs)
  remaining : ∀ {s cs}, Emits s cs → cs.length ≤ ops.remaining s

/-- Streams that are asked: after an answer those for higher shards stay the same. -/
structure Answering (kind : Query → Prop) (ops : StreamOps σ)
    (Answers : σ → (ShardId → Evidence) → Prop) : Prop where
  answer : ∀ {s g} id, Answers s g → Shard.isDay id = false →
    ∃ s' g', ops.answer id s = pure (some ⟨id, g id⟩, s') ∧ Answers s' g' ∧
      ∀ j, id < j → g' j = g j
  ofKind : ∀ {s g}, Answers s g → ∀ id, kind (g id).query

namespace Emitting

variable {ops : StreamOps σ} {Emits : σ → List Candidate → Prop}
variable {ss : List σ} {css : List (List Candidate)}

theorem mapM_seek (h : Emitting kind ops Emits) (id : ShardId) (hs : List.Forall₂ Emits ss css) :
    ∃ ss', ss.mapM (ops.seek id) = pure ss' ∧ List.Forall₂ Emits ss' (css.map (onward id)) := by
  induction hs with
  | nil => exact ⟨[], rfl, .nil⟩
  | cons hs _ ih =>
    obtain ⟨s', hs', he⟩ := h.seek id hs
    obtain ⟨ss', hss', hes⟩ := ih
    exact ⟨s' :: ss', by rw [List.mapM_cons, hs', pure_bind, hss', pure_bind], .cons he hes⟩

theorem isListing (h : Emitting kind ops Emits) (hs : List.Forall₂ Emits ss css) :
    ∀ cs ∈ css, ListingOf kind cs := by
  induction hs with
  | nil => simp
  | cons hs _ ih =>
    intro cs hcs
    rcases List.mem_cons.mp hcs with rfl | hcs
    · exact h.listing hs
    · exact ih cs hcs

theorem length_flatten_le (h : Emitting kind ops Emits) (hs : List.Forall₂ Emits ss css) :
    css.flatten.length ≤ ops.remainingOfAll ss := by
  induction hs with
  | nil => exact Nat.le_refl 0
  | cons hs _ ih =>
    have := h.remaining hs
    rw [List.flatten_cons, List.length_append, StreamOps.remainingOfAll_cons]
    omega

end Emitting

/-! ### Sources and leaves -/

namespace Source

@[simp]
theorem pull_ofList (cs : List Candidate) :
    (ofList cs).pull = pure (cs.head?, ofList cs.tail) := by
  cases cs <;> rfl

theorem skipTo_ofList {id : ShardId} {c : Candidate} {cs : List Candidate}
    (h : ListingOf kind (c :: cs)) :
    skipTo id none c (cs.map (none, ·)) =
      pure ((onward id (c :: cs)).head?, ofList (onward id (c :: cs)).tail) := by
  induction cs generalizing c with
  | nil =>
    rw [List.map_nil, skipTo, Shard.precedes_of_isDay_eq_false (h.numbered c List.mem_cons_self)]
    by_cases hc : c.shard < id
    · rw [onward_cons_of_lt hc, if_pos (decide_eq_true hc)]
      rfl
    · rw [onward_of_not_lt h.ascending hc, if_neg (by simpa using hc)]
      rfl
  | cons d cs ih =>
    rw [List.map_cons, skipTo, Shard.precedes_of_isDay_eq_false (h.numbered c List.mem_cons_self)]
    by_cases hc : c.shard < id
    · rw [onward_cons_of_lt hc, if_pos (decide_eq_true hc)]
      exact (pure_bind () _).trans (ih h.tail)
    · rw [onward_of_not_lt h.ascending hc, if_neg (by simpa using hc)]
      rfl

end Source

namespace Leaf

variable {l : Leaf} {cs : List Candidate}

def Emits (kind : Query → Prop) (l : Leaf) (cs : List Candidate) : Prop :=
  ListingOf kind cs ∧ l.state = .present cs.head? (.ofList cs.tail)

theorem resolve_of_emits (h : l.Emits kind cs) : l.resolve = pure l := by
  rw [resolve, h.2]

theorem head_of_emits (h : l.Emits kind cs) : l.head = cs.head? := by
  rw [head, h.2]

theorem advance_of_emits (h : l.Emits kind cs) :
    ∃ l', l.advance = pure (cs.head?, l') ∧ l'.Emits kind cs.tail := by
  rw [advance, resolve_of_emits h, pure_bind, h.2]
  cases cs with
  | nil => exact ⟨l, rfl, h⟩
  | cons c cs =>
    refine ⟨{ l with state := .present cs.head? (.ofList cs.tail) }, ?_, h.1.tail, rfl⟩
    simp only [List.head?_cons, List.tail_cons, Source.pull_ofList, pure_bind]

theorem seek_of_emits (id : ShardId) (h : l.Emits kind cs) :
    ∃ l', l.seek id = pure l' ∧ l'.Emits kind (onward id cs) := by
  rw [seek, resolve_of_emits h, pure_bind, h.2]
  cases cs with
  | nil => exact ⟨l, rfl, h⟩
  | cons c cs =>
    refine ⟨⟨l.query, .present (onward id (c :: cs)).head? (.ofList (onward id (c :: cs)).tail)⟩,
      ?_, h.1.onward, rfl⟩
    simp only [List.head?_cons, List.tail_cons, Source.ofList, Source.skipTo_ofList h.1, pure_bind]

theorem remaining_of_emits (h : l.Emits kind cs) : cs.length ≤ l.remaining := by
  rw [remaining, h.2]
  cases cs <;> simp [Source.ofList]

theorem emitting : Emitting kind Leaf.ops (Leaf.Emits kind) where
  listing h := h.1
  head := head_of_emits
  advance := advance_of_emits
  seek := seek_of_emits
  remaining := remaining_of_emits

end Leaf

end Merge

end ShardedSearch
