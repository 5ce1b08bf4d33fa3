import ShardedSearch.Proofs.Merge.Draining
import ShardedSearch.Proofs.Merge.Reading
import ShardedSearch.Proofs.Merge.Rearranging

/-! # Reordered trees

Trees that differ in the order of the streams of their merges, and in the form of the queries
that their leaves list. Level by level they do the same, so their candidates agree one by one.
-/

namespace ShardedSearch.Merge

open Candidate (Agree)

/-! ### Leaves -/

namespace Source

/-- Candidates that agree one by one, whatever errors are met on the way. -/
def Agrees (a b : Source) : Prop :=
  List.Forall₂ (fun p q : Option PlanError × Candidate => p.2.Agree q.2) a.items b.items

def InView (p q : Option Candidate × Source) : Prop := Option.Rel Agree p.1 q.1 ∧ Agrees p.2 q.2

variable {a b : Source} {c d : Candidate}

theorem pull_agrees (h : Agrees a b) : InView a.pull.value b.pull.value := by
  obtain ⟨items, ending⟩ := a
  obtain ⟨items', ending'⟩ := b
  cases h with
  | nil => exact ⟨.none, .nil⟩
  | cons hcd hrest => exact ⟨.some hcd, hrest⟩

theorem skipTo_agrees (id : ShardId) (ending ending' : Option PlanError)
    {items items' : List (Option PlanError × Candidate)} (hcd : c.Agree d)
    (h : List.Forall₂ (fun p q : Option PlanError × Candidate => p.2.Agree q.2) items items') :
    InView (skipTo id ending c items).value (skipTo id ending' d items').value := by
  induction h generalizing c d with
  | nil =>
    unfold skipTo
    rw [← hcd.shard]
    split
    · exact ⟨.none, .nil⟩
    · exact ⟨.some hcd, .nil⟩
  | cons hnext hrest ih =>
    unfold skipTo
    rw [← hcd.shard]
    split
    · exact ih hnext
    · exact ⟨.some hcd, .cons hnext hrest⟩

end Source

inductive LeafState.Agrees : LeafState → LeafState → Prop where
  | present {c? d? : Option Candidate} {a b : Source} :
      Source.InView (c?, a) (d?, b) → Agrees (.present c? a) (.present d? b)
  | absent : Agrees .absent .absent
  | skipped : Agrees .skipped .skipped
  | delayed : Agrees .delayed .delayed

namespace Leaf

variable {l m : Leaf}

structure Rearranged (l m : Leaf) : Prop where
  query : l.query.Equivalent m.query
  state : l.state.Agrees m.state

theorem settled_of_rearranged (h : Rearranged l m) : l.Settled ∧ m.Settled := by
  obtain ⟨q, state⟩ := l
  obtain ⟨q', state'⟩ := m
  cases h.state <;> constructor <;> intro lookup he <;> cases he

theorem context_of_rearranged (h : Rearranged l m) : l.context = m.context := by
  obtain ⟨q, state⟩ := l
  obtain ⟨q', state'⟩ := m
  cases h.state <;> rfl

theorem head_of_rearranged (h : Rearranged l m) : Option.Rel Agree l.head m.head := by
  obtain ⟨q, state⟩ := l
  obtain ⟨q', state'⟩ := m
  cases h.state with
  | present hview => exact hview.1
  | _ => exact .none

theorem advance_rearranged (h : Rearranged l m) :
    Rearranged l.advance.value.2 m.advance.value.2 := by
  obtain ⟨q, state⟩ := l
  obtain ⟨q', state'⟩ := m
  cases h.state with
  | present hview =>
    obtain ⟨hhead, hrest⟩ := hview
    cases hhead with
    | none => exact ⟨h.query, .present ⟨.none, hrest⟩⟩
    | some => exact ⟨h.query, .present (Source.pull_agrees hrest)⟩
  | _ => exact h

theorem seek_rearranged (id : ShardId) (h : Rearranged l m) :
    Rearranged (l.seek id).value (m.seek id).value := by
  obtain ⟨q, state⟩ := l
  obtain ⟨q', state'⟩ := m
  cases h.state with
  | present hview =>
    obtain ⟨hhead, hrest⟩ := hview
    cases hhead with
    | none => exact ⟨h.query, .present ⟨.none, hrest⟩⟩
    | some hcd => exact ⟨h.query, .present (Source.skipTo_agrees id _ _ hcd hrest)⟩
  | _ => exact h

theorem rearranged_self (hl : l.Settled) : Rearranged l l := by
  obtain ⟨q, state⟩ := l
  refine ⟨.refl q, ?_⟩
  cases state with
  | pending lookup => exact absurd rfl (hl lookup)
  | present c? rest =>
    refine .present ⟨?_, List.forall₂_same.mpr fun p _ => .refl p.2⟩
    cases c? with
    | none => exact .none
    | some c => exact .some (.refl c)
  | absent => exact .absent
  | skipped => exact .skipped
  | delayed => exact .delayed

theorem ofList_rearranged {q q' : Query} {cs ds : List Candidate} (hq : q.Equivalent q')
    (h : List.Forall₂ Agree cs ds) : Rearranged (ofList q cs) (ofList q' ds) := by
  refine ⟨hq, ?_⟩
  cases h with
  | nil => exact .absent
  | cons hcd hrest =>
    refine .present ⟨.some hcd, ?_⟩
    exact List.forall₂_map_left_iff.mpr (List.forall₂_map_right_iff.mpr hrest)

end Leaf

/-! ### Trees -/

namespace Stream

variable {n m : Nat} {s t : Stream} {ss ts : List Stream}

inductive RearrangedOver (n : Nat) (R : Stream → Stream → Prop) : Stream → Stream → Prop where
  | leaf {l m : Leaf} : l.Rearranged m → RearrangedOver n R (.leaf l) (.leaf m)
  | disjunction {d e : Disjunction Stream} : Disjunction.Rearranged R d e →
      RearrangedOver n R (.disjunction d) (.disjunction e)
  | conjunction {i j : Conjunction Stream} :
      Conjunction.Rearranged (opsWithin n) (Settled n) R i j →
      RearrangedOver n R (.conjunction i) (.conjunction j)

/-- Trees of at most the given height that differ in the order of the streams of their merges. -/
def Rearranged : Nat → Stream → Stream → Prop
  | 0 => fun _ _ => False
  | n + 1 => RearrangedOver n (Rearranged n)

theorem context_of_rearranged (h : Rearranged n s t) : s.context = t.context := by
  cases n with
  | zero => cases h
  | succ n =>
    cases h with
    | leaf h => exact Leaf.context_of_rearranged h
    | disjunction h => exact h.context
    | conjunction h => exact h.context

/-- Rearranged trees do the same at any level. -/
theorem rearranging (n : Nat) : Rearranging (opsWithin n) (Settled n) (Rearranged n) := by
  induction n with
  | zero =>
    refine ⟨diminishing 0, ?_, ?_, ?_, ?_, ?_, ?_, ?_⟩ <;> intros <;>
      simp_all only [Rearranged, Mixed, false_and]
  | succ n ih =>
    constructor
    case diminishing => exact diminishing (n + 1)
    case context => exact context_of_rearranged
    case settled =>
      intro s t h
      cases h with
      | leaf h => exact Leaf.settled_of_rearranged h
      | disjunction h => exact ih.settled_of_matched h.children
      | conjunction h => exact h.settled
    case query =>
      intro s t h
      cases h with
      | leaf h => exact h.query
      | disjunction h => exact h.query
      | conjunction h => exact h.query
    case head =>
      intro s t h
      cases h with
      | leaf h => exact Leaf.head_of_rearranged h
      | disjunction h => exact h.head
      | conjunction h => exact h.head
    case advance =>
      intro s t h
      cases h with
      | leaf h => exact .leaf (Leaf.advance_rearranged h)
      | disjunction h => exact .disjunction (Disjunction.advance_rearranged ih h)
      | conjunction h => exact .conjunction (Conjunction.advance_rearranged ih h)
    case seek =>
      intro s t id h
      cases h with
      | leaf h => exact .leaf (Leaf.seek_rearranged id h)
      | disjunction h => exact .disjunction (Disjunction.seek_rearranged ih id h)
      | conjunction h => exact .conjunction (Conjunction.seek_rearranged ih id h)
    case answer =>
      rintro s t id ⟨h, hmixed⟩
      cases h with
      | @leaf l m h =>
        -- a leaf is never mixed
        obtain ⟨q, state⟩ := l
        cases state <;> cases hmixed
      | disjunction h =>
        obtain ⟨hsome, hagree, hnext, hcontext⟩ :=
          Disjunction.answer_rearranged ih id h hmixed
        exact ⟨hsome, hagree, .disjunction hnext, hcontext⟩
      | @conjunction _ j h =>
        have hmixed' : j.context = .mixed := h.context.symm.trans hmixed
        rw [opsWithin, opsOver]
        dsimp only
        rw [Conjunction.answer_of_mixed id hmixed, Conjunction.answer_of_mixed id hmixed']
        exact ⟨rfl, .some ⟨rfl, Evidence.agree_unknown h.query⟩, .conjunction h, hmixed⟩

theorem rearranged_mono (h : Rearranged n s t) (hn : n ≤ m) : Rearranged m s t := by
  induction n generalizing m s t with
  | zero => cases h
  | succ n ih =>
    obtain ⟨m, rfl⟩ := Nat.exists_eq_succ_of_ne_zero (by omega : m ≠ 0)
    have hle := Nat.le_of_succ_le_succ hn
    have hall : ∀ {ss ts}, Matched (Rearranged n) ss ts → Matched (Rearranged m) ss ts :=
      fun hr => hr.mono fun _ _ hst => ih hst hle
    cases h with
    | leaf h => exact .leaf h
    | disjunction h => exact .disjunction { h with children := hall h.children }
    | conjunction h =>
      have hsettled := h.settled
      refine .conjunction { h with settled := ?_, streams := fun hhead => ?_ }
      · exact ⟨⟨fun s hs => settled_mono (hsettled.1.1 s hs) hle,
          fun s hs => settled_mono (hsettled.1.2 s hs) hle⟩,
          fun s hs => settled_mono (hsettled.2.1 s hs) hle,
          fun s hs => settled_mono (hsettled.2.2 s hs) hle⟩
      · obtain ⟨hchildren, hasked⟩ := h.streams hhead
        refine ⟨hall hchildren, hasked.mono fun s t hst => ⟨ih hst.1 hle, ?_⟩⟩
        rw [opsWithin_context]
        exact opsWithin_context (n := n) ▸ hst.2

/-- Candidates of rearranged trees agree one by one. -/
theorem agree_of_drains {cs ds : List Candidate} (h : Rearranged n s t) (hs : Drains s cs)
    (ht : Drains t ds) : List.Forall₂ Agree cs ds := by
  induction hs generalizing t ds with
  | @ended s hnone =>
    obtain ⟨hws, hwt⟩ := (rearranging n).settled h
    have hhead := (rearranging n).head h
    rw [← (diminishing n).taken hws, ← (diminishing n).taken hwt, ← advance_eq hws,
      ← advance_eq hwt, hnone] at hhead
    cases ht with
    | ended => exact .nil
    | cons hc =>
      rw [hc] at hhead
      cases hhead
  | @cons s c cs hc hrest ih =>
    obtain ⟨hws, hwt⟩ := (rearranging n).settled h
    have hhead := (rearranging n).head h
    have hnext := (rearranging n).advance h
    rw [← (diminishing n).taken hws, ← (diminishing n).taken hwt, ← advance_eq hws,
      ← advance_eq hwt, hc] at hhead
    rw [← advance_eq hws, ← advance_eq hwt] at hnext
    cases ht with
    | ended hnone =>
      rw [hnone] at hhead
      cases hhead
    | cons hd hrest' =>
      rw [hd] at hhead
      cases hhead with
      | some hcd => exact .cons hcd (ih hnext hrest')

/-! ### Merges of trees -/

/-- Matched streams that are rearranged at some level are so at one level for all, as high as is
wanted. -/
theorem exists_common_level (h : Matched (fun s t => ∃ n, Rearranged n s t) ss ts) (n : Nat) :
    ∃ m, n ≤ m ∧ Matched (Rearranged m) ss ts := by
  obtain ⟨us, hr, hp⟩ := h
  suffices hall : ∃ m, n ≤ m ∧ List.Forall₂ (Rearranged m) ss us by
    obtain ⟨m, hm, hr⟩ := hall
    exact ⟨m, hm, us, hr, hp⟩
  clear hp
  induction hr with
  | nil => exact ⟨n, Nat.le_refl n, .nil⟩
  | cons hst _ ih =>
    obtain ⟨k, hk⟩ := hst
    obtain ⟨m, hm, hr⟩ := ih
    refine ⟨max k m, hm.trans (Nat.le_max_right k m), .cons ?_ ?_⟩
    · exact rearranged_mono hk (Nat.le_max_left k m)
    · exact hr.imp fun _ _ h => rearranged_mono h (Nat.le_max_right k m)

theorem disjunction_ofStreams_within (q : Query) (hs : ∀ s ∈ ss, ∃ n, Settled n s)
    (hn : heightOfAll ss ≤ n) :
    Disjunction.ofStreams (opsFor ss) q ss = Disjunction.ofStreams (opsWithin n) q ss := by
  have hall := settled_heightOfAll hs
  rw [Disjunction.ofStreams, Disjunction.ofStreams, opsFor, Disjunction.sort_eq,
    Disjunction.sort_eq, opsWithin_context, opsWithin_context, opsWithin_query, opsWithin_query]
  exact disjunction_refill_within (fun s hs => hall s (List.mem_filter.mp hs).1) (Nat.le_refl _) hn

theorem conjunction_ofStreams_within (q : Query) (hs : ∀ s ∈ ss, ∃ n, Settled n s)
    (hn : heightOfAll ss ≤ n) :
    Conjunction.ofStreams (opsFor ss) q ss = Conjunction.ofStreams (opsWithin n) q ss := by
  have hall := settled_heightOfAll hs
  have hfilter : ∀ p : Stream → Bool, ∀ s ∈ ss.filter p, Settled (heightOfAll ss) s :=
    fun p s hs => hall s (List.mem_filter.mp hs).1
  rw [Conjunction.ofStreams, Conjunction.ofStreams, opsFor, opsWithin_context, opsWithin_context,
    opsWithin_query, opsWithin_query]
  split
  · rfl
  · dsimp only
    split
    · exact conjunction_refill_within ⟨hfilter _, hfilter _⟩ (Nat.le_refl _) hn
    · split
      · exact conjunction_refill_within ⟨hfilter _, List.forall_mem_nil _⟩ (Nat.le_refl _) hn
      · rfl

theorem disjunction_ofStreams_rearranged {q q' : Query} (hq : q.Equivalent q')
    (h : Matched (fun s t => ∃ n, Rearranged n s t) ss ts) :
    ∃ n, Rearranged n (.disjunction (Disjunction.ofStreams (opsFor ss) q ss).value)
      (.disjunction (Disjunction.ofStreams (opsFor ts) q' ts).value) := by
  obtain ⟨n, hn, hr⟩ := exists_common_level h (max (heightOfAll ss) (heightOfAll ts))
  obtain ⟨hs, ht⟩ := (rearranging n).settled_of_matched hr
  rw [disjunction_ofStreams_within q (fun s h => ⟨n, hs s h⟩) ((Nat.le_max_left _ _).trans hn),
    disjunction_ofStreams_within q' (fun t h => ⟨n, ht t h⟩) ((Nat.le_max_right _ _).trans hn)]
  exact ⟨n + 1, .disjunction (Disjunction.ofStreams_rearranged (rearranging n) hq hr)⟩

theorem conjunction_ofStreams_rearranged {q q' : Query} (hq : q.Equivalent q')
    (h : Matched (fun s t => ∃ n, Rearranged n s t) ss ts) :
    ∃ n, Rearranged n (.conjunction (Conjunction.ofStreams (opsFor ss) q ss).value)
      (.conjunction (Conjunction.ofStreams (opsFor ts) q' ts).value) := by
  obtain ⟨n, hn, hr⟩ := exists_common_level h (max (heightOfAll ss) (heightOfAll ts))
  obtain ⟨hs, ht⟩ := (rearranging n).settled_of_matched hr
  rw [conjunction_ofStreams_within q (fun s h => ⟨n, hs s h⟩) ((Nat.le_max_left _ _).trans hn),
    conjunction_ofStreams_within q' (fun t h => ⟨n, ht t h⟩) ((Nat.le_max_right _ _).trans hn)]
  exact ⟨n + 1, .conjunction (Conjunction.ofStreams_rearranged (rearranging n) hq hr)⟩

end Stream

end ShardedSearch.Merge
