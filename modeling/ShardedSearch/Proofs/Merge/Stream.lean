import ShardedSearch.Merge.Stream
import ShardedSearch.Proofs.Merge.Conjunction
import ShardedSearch.Proofs.Merge.Disjunction

/-! # What trees of merges emit

What a tree emits is told by what its subtrees emit, level by level. Draining a tree gives
its listing, and seeking only leaves out what comes before.
-/

namespace ShardedSearch.Merge

open Candidate

theorem forall₂_imp_of_mem {α β : Type} {R R' : α → β → Prop} {as : List α} {bs : List β}
    (h : List.Forall₂ R as bs) (hR : ∀ a ∈ as, ∀ b, R a b → R' a b) : List.Forall₂ R' as bs := by
  induction h with
  | nil => exact .nil
  | cons hab _ ih =>
    exact .cons (hR _ List.mem_cons_self _ hab) (ih fun a ha => hR a (List.mem_cons_of_mem _ ha))

variable {kind : Query → Prop}

theorem Disjunction.Emits.mono {σ : Type} {R R' : σ → List Candidate → Prop} {d : Disjunction σ}
    {cs : List Candidate} (h : d.Emits kind R cs)
    (hR : ∀ s ∈ d.children, ∀ cs, R s cs → R' s cs) : d.Emits kind R' cs := by
  obtain ⟨hcs, hd, hview, css, rest, hr, hrest⟩ := h
  exact ⟨hcs, hd, hview, css, rest, forall₂_imp_of_mem hr hR, hrest⟩

theorem Conjunction.Emits.mono {σ : Type} {R R' : σ → List Candidate → Prop}
    {A A' : σ → (ShardId → Evidence) → Prop} {j : Conjunction σ} {cs : List Candidate}
    (h : j.Emits kind R A cs) (hR : ∀ s ∈ j.children, ∀ cs, R s cs → R' s cs)
    (hA : ∀ s ∈ j.asked, ∀ g, A s g → A' s g) : j.Emits kind R' A' cs := by
  obtain ⟨hcs, hhead, hrest⟩ := h
  refine ⟨hcs, hhead, fun hne => ?_⟩
  obtain ⟨hchildren, hd, css, gs, hr, hg, hat⟩ := hrest hne
  exact ⟨hchildren, hd, css, gs, forall₂_imp_of_mem hr hR,
    forall₂_imp_of_mem hg hA, hat⟩

namespace Stream

mutual

/-- What a tree of at most the given height emits, with queries of one kind. -/
def EmitsOfWithin (kind : Query → Prop) : Nat → Stream → List Candidate → Prop
  | _ + 1, leaf l, cs => l.Emits kind cs
  | n + 1, disjunction d, cs => d.Emits kind (EmitsOfWithin kind n) cs
  | n + 1, conjunction j, cs => j.Emits kind (EmitsOfWithin kind n) (AnswersOfWithin kind n) cs
  | _, _, _ => False

/-- What a tree of at most the given height answers. Deferred clauses are joined to what a
disjunction has in view, which takes flat queries. -/
def AnswersOfWithin (kind : Query → Prop) : Nat → Stream → (ShardId → Evidence) → Prop
  | n + 1, disjunction d, g =>
    (∀ q, kind q → q.IsFlat) ∧ d.Answers kind (EmitsOfWithin kind n) g
  | _ + 1, conjunction j, g => j.Answers kind g
  | _, _, _ => False

end

abbrev EmitsWithin : Nat → Stream → List Candidate → Prop := EmitsOfWithin Query.IsFlat

abbrev AnswersWithin : Nat → Stream → (ShardId → Evidence) → Prop :=
  AnswersOfWithin Query.IsFlat

variable {n m : Nat} {s : Stream} {ss : List Stream} {cs : List Candidate}
variable {g : ShardId → Evidence}

theorem height_le_heightOfAll (hs : s ∈ ss) : s.height ≤ heightOfAll ss := by
  induction ss with
  | nil => simp at hs
  | cons t ss ih =>
    rw [heightOfAll]
    rcases List.mem_cons.mp hs with rfl | hs
    · exact Nat.le_max_left ..
    · exact (ih hs).trans (Nat.le_max_right ..)

/-- What a tree emits and answers does not depend on a bound for its height. -/
theorem within_of_height_le :
    ∀ n m s, s.height ≤ m →
      (∀ cs, EmitsOfWithin kind n s cs → EmitsOfWithin kind m s cs) ∧
      (∀ g, AnswersOfWithin kind n s g → AnswersOfWithin kind m s g)
  | 0, _, _, _ =>
    ⟨fun _ h => by simp [EmitsOfWithin] at h, fun _ h => by simp [AnswersOfWithin] at h⟩
  | n + 1, 0, s, hm => by cases s <;> simp [height] at hm
  | n + 1, m + 1, leaf l, _ => ⟨fun _ h => h, fun _ h => h⟩
  | n + 1, m + 1, disjunction d, hm => by
    have hle : ∀ s ∈ d.children, s.height ≤ m := by
      intro s hs
      have := height_le_heightOfAll hs
      rw [height, heightOfDisjunction] at hm
      omega
    have hR : ∀ s ∈ d.children, ∀ cs, EmitsOfWithin kind n s cs → EmitsOfWithin kind m s cs :=
      fun s hs => (within_of_height_le n m s (hle s hs)).1
    refine ⟨fun _ h => h.mono hR, fun _ h => ?_⟩
    obtain ⟨hk, hctx, hd, cs, he, hg⟩ := h
    exact ⟨hk, hctx, hd, cs, he.mono hR, hg⟩
  | n + 1, m + 1, conjunction j, hm => by
    have hle : ∀ s ∈ j.children ++ j.asked, s.height ≤ m := by
      intro s hs
      rw [height, heightOfConjunction] at hm
      rcases List.mem_append.mp hs with hs | hs
      · have := height_le_heightOfAll hs
        omega
      · have := height_le_heightOfAll hs
        omega
    refine ⟨fun _ h => h.mono (fun s hs => ?_) fun s hs => ?_, fun _ h => h⟩
    · exact (within_of_height_le n m s (hle s (List.mem_append_left _ hs))).1
    · exact (within_of_height_le n m s (hle s (List.mem_append_right _ hs))).2

section Operations

variable [Evidence.Keeps kind] {ops : StreamOps Stream}
variable (ho : Emitting kind ops (EmitsOfWithin kind n))
include ho

theorem emitting_opsOver (ha : Answering kind ops (AnswersOfWithin kind n)) :
    Emitting kind (opsOver ops) (EmitsOfWithin kind (n + 1)) where
  listing {s cs} h := by
    match s, h with
    | leaf l, h => exact h.1
    | disjunction d, h => exact h.1
    | conjunction j, h => exact h.1
  head {s cs} h := by
    match s, h with
    | leaf l, h => exact Leaf.head_of_emits h
    | disjunction d, h => exact Disjunction.head_of_emits h
    | conjunction j, h => exact h.2.1
  advance {s cs} h := by
    match s, h with
    | leaf l, h =>
      obtain ⟨l', hl, he⟩ := Leaf.advance_of_emits h
      exact ⟨leaf l', by simp only [opsOver, hl, pure_bind], he⟩
    | disjunction d, h =>
      obtain ⟨d', hd, he⟩ := Disjunction.advance_of_emits ho h
      exact ⟨disjunction d', by simp only [opsOver, hd, pure_bind], he⟩
    | conjunction j, h =>
      obtain ⟨j', hj, he⟩ := Conjunction.advance_of_emits ho ha h
      exact ⟨conjunction j', by simp only [opsOver, hj, pure_bind], he⟩
  seek {s cs} id h := by
    match s, h with
    | leaf l, h =>
      obtain ⟨l', hl, he⟩ := Leaf.seek_of_emits id h
      exact ⟨leaf l', by simp only [opsOver, hl, map_pure], he⟩
    | disjunction d, h =>
      obtain ⟨d', hd, he⟩ := Disjunction.seek_of_emits ho id h
      exact ⟨disjunction d', by simp only [opsOver, hd, map_pure], he⟩
    | conjunction j, h =>
      obtain ⟨j', hj, he⟩ := Conjunction.seek_of_emits ho ha id h
      exact ⟨conjunction j', by simp only [opsOver, hj, map_pure], he⟩
  remaining {s cs} h := by
    match s, h with
    | leaf l, h => exact Leaf.remaining_of_emits h
    | disjunction d, h => exact Disjunction.remaining_of_emits ho h
    | conjunction j, h => exact Conjunction.remaining_of_emits ho h

theorem answering_opsOver :
    Answering kind (opsOver ops) (AnswersOfWithin kind (n + 1)) where
  answer {s g} id h hid := by
    cases s with
    | leaf l => simp [AnswersOfWithin] at h
    | disjunction d =>
      obtain ⟨d', g', hd, ha, hg⟩ := Disjunction.answer_of_answers h.1 ho id h.2 hid
      exact ⟨disjunction d', g', by simp only [opsOver, hd, pure_bind], ⟨h.1, ha⟩, hg⟩
    | conjunction j =>
      have hj : j.answer ops id = pure (some ⟨id, g id⟩, j) := Conjunction.answer_of_answers id h
      exact ⟨conjunction j, g, by simp only [opsOver, hj, pure_bind], h, fun _ _ => rfl⟩
  ofKind {s g} h id := by
    cases s with
    | leaf l => simp [AnswersOfWithin] at h
    | disjunction d => exact Disjunction.ofKind_of_answers h.2 id
    | conjunction j =>
      rw [h.2.2]
      exact h.2.1

end Operations

section Trees

variable [Evidence.Keeps kind]

/-- The operations on trees of at most a height do on them what listings tell. -/
theorem emitting_and_answering (n : Nat) :
    Emitting kind (opsWithin n) (EmitsOfWithin kind n) ∧
      Answering kind (opsWithin n) (AnswersOfWithin kind n) := by
  induction n with
  | zero =>
    refine ⟨⟨?_, ?_, ?_, ?_, ?_⟩, ⟨?_, ?_⟩⟩ <;> intros <;>
      simp_all only [EmitsOfWithin, AnswersOfWithin]
  | succ n ih => exact ⟨emitting_opsOver ih.1 ih.2, answering_opsOver ih.1⟩

theorem emitting (n : Nat) : Emitting kind (opsWithin n) (EmitsOfWithin kind n) :=
  (emitting_and_answering n).1

theorem answering (n : Nat) : Answering kind (opsWithin n) (AnswersOfWithin kind n) :=
  (emitting_and_answering n).2

end Trees

/-! ### Whole trees -/

def EmitsOf (kind : Query → Prop) (s : Stream) (cs : List Candidate) : Prop :=
  EmitsOfWithin kind s.height s cs

abbrev Emits : Stream → List Candidate → Prop := EmitsOf Query.IsFlat

def Answers (s : Stream) (g : ShardId → Evidence) : Prop := AnswersWithin s.height s g

theorem EmitsOf.of_within (h : EmitsOfWithin kind n s cs) : s.EmitsOf kind cs :=
  (within_of_height_le n _ s (Nat.le_refl _)).1 cs h

theorem EmitsOf.within (h : s.EmitsOf kind cs) (hn : s.height ≤ n) : EmitsOfWithin kind n s cs :=
  (within_of_height_le _ n s hn).1 cs h

theorem Answers.within (h : s.Answers g) (hn : s.height ≤ n) : AnswersWithin n s g :=
  (within_of_height_le _ n s hn).2 g h

theorem emitsOf_nothing (q : Query) :
    (conjunction (Conjunction.nothing q)).EmitsOf kind [] :=
  .of_within (n := 1) (Conjunction.emits_nil rfl)

theorem resolve_of_emits (h : s.EmitsOf kind cs) : s.resolve = pure s := by
  match s, h with
  | leaf l, h =>
    rw [resolve, Leaf.resolve_of_emits h, map_pure]
  | disjunction d, _ => rfl
  | conjunction j, _ => rfl

section Trees

variable [Evidence.Keeps kind]

theorem EmitsOf.isListing (h : s.EmitsOf kind cs) : ListingOf kind cs := (emitting _).listing h

omit [Evidence.Keeps kind] in
@[simp]
theorem opsWithin_head : (opsWithin n).head = head := by cases n <;> rfl

theorem head_of_emits (h : s.EmitsOf kind cs) : s.head = cs.head? := by
  rw [← (emitting _).head h, opsWithin_head]

theorem advance_of_emits (h : s.EmitsOf kind cs) :
    ∃ s', s.advance = pure (cs.head?, s') ∧ s'.EmitsOf kind cs.tail := by
  obtain ⟨s', hs, he⟩ := (emitting _).advance h
  exact ⟨s', hs, .of_within he⟩

theorem seek_of_emits (id : ShardId) (h : s.EmitsOf kind cs) :
    ∃ s', s.seek id = pure s' ∧ s'.EmitsOf kind (onward id cs) := by
  obtain ⟨s', hs, he⟩ := (emitting _).seek id h
  exact ⟨s', hs, .of_within he⟩

theorem remaining_of_emits (h : s.EmitsOf kind cs) : cs.length ≤ s.remaining :=
  (emitting _).remaining h

theorem take_of_emits (n : Nat) (h : s.EmitsOf kind cs) :
    ∃ s', s.take n = pure (cs.take n, s') ∧ s'.EmitsOf kind (cs.drop n) := by
  induction n generalizing s cs with
  | zero => exact ⟨s, rfl, h⟩
  | succ n ih =>
    obtain ⟨s₁, hs₁, he₁⟩ := advance_of_emits h
    rw [take, hs₁, pure_bind]
    cases cs with
    | nil => exact ⟨s₁, rfl, he₁⟩
    | cons c cs =>
      obtain ⟨s₂, hs₂, he₂⟩ := ih he₁
      rw [List.tail_cons] at hs₂
      exact ⟨s₂, by simp only [List.head?_cons, hs₂, pure_bind, List.take_succ_cons], he₂⟩

theorem drain_of_emits (h : s.EmitsOf kind cs) : ∃ s', s.drain = pure (cs, s') := by
  obtain ⟨s', hs, -⟩ := take_of_emits (s.remaining + 1) h
  have hle := remaining_of_emits h
  rw [List.take_of_length_le (by omega)] at hs
  exact ⟨s', by rw [drain, resolve_of_emits h, pure_bind, hs]⟩

end Trees

end Stream

end ShardedSearch.Merge
