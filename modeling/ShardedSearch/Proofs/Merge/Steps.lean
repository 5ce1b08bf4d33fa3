import Mathlib.Data.List.Forall2
import ShardedSearch.Merge.Stream

/-! # What merges do to their streams

A merge only advances and seeks its streams, and asks some of them. What these operations keep
to, every operation of a merge keeps to for each of its streams.
-/

namespace ShardedSearch.Merge

variable {σ : Type} {ops : StreamOps σ} {R A : σ → σ → Prop} {s : σ} {ss : List σ}
variable {id shard target : ShardId} {n : Nat}

/-- A preorder that streams keep to as they move. -/
structure Moves (ops : StreamOps σ) (R : σ → σ → Prop) : Prop where
  refl : ∀ s, R s s
  trans : ∀ s t u, R s t → R t u → R s u
  advance : ∀ s, R s (ops.advance s).value.2
  seek : ∀ id s, R s (ops.seek id s).value

structure Asks (ops : StreamOps σ) (A : σ → σ → Prop) : Prop where
  refl : ∀ s, A s s
  trans : ∀ s t u, A s t → A t u → A s u
  answer : ∀ id s, A s (ops.answer id s).value.2

theorem forall₂_refl {α : Type} {R : α → α → Prop} (h : ∀ a, R a a) (as : List α) :
    List.Forall₂ R as as :=
  List.forall₂_same.mpr fun a _ => h a

theorem forall₂_trans {α : Type} {R : α → α → Prop} (h : ∀ a b c, R a b → R b c → R a c)
    {as bs cs : List α} (hab : List.Forall₂ R as bs) (hbc : List.Forall₂ R bs cs) :
    List.Forall₂ R as cs := by
  induction hab generalizing cs with
  | nil => exact hbc
  | cons hr _ ih =>
    cases hbc with
    | cons hr' hrest => exact .cons (h _ _ _ hr hr') (ih hrest)

namespace Moves

variable (h : Moves ops R)
include h

theorem mapM_seek (id : ShardId) (ss : List σ) :
    List.Forall₂ R ss (ss.mapM (ops.seek id)).value := by
  induction ss with
  | nil => exact .nil
  | cons s ss ih =>
    rw [List.mapM_cons]
    exact .cons (h.seek id s) ih

end Moves

/-! ### Disjunctions -/

namespace Disjunction

variable {d : Disjunction σ} (h : Moves ops R)
include h

theorem takeFrom_moves (shard : ShardId) (n : Nat) (s : σ) :
    R s (takeFrom ops shard n s).value.2 := by
  induction n generalizing s with
  | zero => exact h.refl s
  | succ n ih =>
    rw [takeFrom]
    split
    · split
      · exact h.trans _ _ _ (h.advance s) (ih _)
      · exact h.refl s
    · exact h.refl s

theorem takeAll_moves (shard : ShardId) (ss : List σ) :
    List.Forall₂ R ss (takeAll ops shard ss).value.2 := by
  induction ss with
  | nil => exact .nil
  | cons s ss ih => exact .cons (takeFrom_moves h shard _ s) ih

omit h in
theorem value_refill (d : Disjunction σ) : (d.refill ops).value =
    match lowest? ops d.children with
    | some id => { d with
        children := (takeAll ops id d.children).value.2
        head := some ⟨id, .disj (takeAll ops id d.children).value.1 d.deferred⟩ }
    | none => { d with head := none } := by
  unfold refill
  cases lowest? ops d.children <;> rfl

theorem refill_moves (d : Disjunction σ) :
    List.Forall₂ R d.children (d.refill ops).value.children := by
  unfold refill
  split
  · exact takeAll_moves h _ d.children
  · exact forall₂_refl h.refl d.children

theorem advance_moves (d : Disjunction σ) :
    List.Forall₂ R d.children (d.advance ops).value.2.children := by
  unfold advance
  split
  · exact refill_moves h d
  · exact forall₂_refl h.refl d.children

theorem seek_moves (id : ShardId) (d : Disjunction σ) :
    List.Forall₂ R d.children (d.seek ops id).value.children := by
  unfold seek
  split
  · exact forall₂_trans h.trans (h.mapM_seek id d.children)
      (refill_moves h { d with children := (d.children.mapM (ops.seek id)).value })
  · exact forall₂_refl h.refl d.children

theorem collect_moves (shard : ShardId) (ss : List σ) :
    List.Forall₂ R ss (collect ops shard ss).value.2 := by
  induction ss with
  | nil => exact .nil
  | cons s ss ih => exact .cons (h.trans _ _ _ (h.seek shard s) (takeFrom_moves h shard _ _)) ih

omit h in
theorem answer_cases (ops : StreamOps σ) (shard : ShardId) (d : Disjunction σ) :
    (d.answer ops shard).value.2 = d ∨ (d.answer ops shard).value.2 =
      (refill ops { d with children := (collect ops shard d.children).value.2 }).value := by
  have hmerged : (answer.answerMerged ops shard d).value.2 = d ∨
      (answer.answerMerged ops shard d).value.2 =
        (refill ops { d with children := (collect ops shard d.children).value.2 }).value := by
    unfold answer.answerMerged
    split
    · split
      · exact .inr rfl
      · split
        · exact .inl rfl
        · split
          · exact .inl rfl
          · exact .inr rfl
    · exact .inr rfl
  unfold answer
  split
  · exact .inl rfl
  · exact hmerged
  · exact hmerged
  · exact .inl rfl

theorem answer_moves (shard : ShardId) (d : Disjunction σ) :
    List.Forall₂ R d.children (d.answer ops shard).value.2.children := by
  rcases answer_cases ops shard d with heq | heq
  · rw [heq]
    exact forall₂_refl h.refl d.children
  · rw [heq]
    exact forall₂_trans h.trans (collect_moves h shard d.children)
      (refill_moves h { d with children := (collect ops shard d.children).value.2 })

end Disjunction

/-! ### Conjunctions -/

/-- Asking a stream with a position keeps what seeking and advancing keep. -/
theorem keeps_answerAt {W : σ → Prop} {head : σ → Option Candidate}
    {advance : σ → Raising (Option Candidate × σ)} {seek : ShardId → σ → Raising σ}
    (ha : ∀ s, W s → W (advance s).value.2) (hk : ∀ s, W s → W (seek id s).value) (hs : W s) :
    W (answerAt head advance seek id s).value.2 := by
  rw [answerAt, Raising.value_bind]
  split
  · split
    · exact ha _ (hk s hs)
    · split
      · exact hk s hs
      · exact hk s hs
  · exact hk s hs

namespace Conjunction

variable {j k : Conjunction σ} {again : Bool}

theorem keeps_answer {W : Conjunction σ → Prop} (ha : ∀ j, W j → W (j.advance ops).value.2)
    (hk : ∀ j, W j → W (j.seek ops shard).value) (hj : W j) :
    W (j.answer ops shard).value.2 := by
  unfold answer
  split
  · exact keeps_answerAt ha hk hj
  · exact hj
  · exact hj
  · exact hj

theorem takeAll_cons (target : ShardId) (s : σ) (ss : List σ) :
    (takeAll ops target (s :: ss)).value.2 =
      (if (ops.head s).any (·.shard = target) then (ops.advance s).value.2 else s) ::
        (takeAll ops target ss).value.2 := by
  rw [takeAll]
  cases ops.head s with
  | none => rfl
  | some c =>
    by_cases hc : c.shard = target
    · simp only [Option.any_some, hc, decide_true, if_true]
      rfl
    · simp only [Option.any_some, hc, decide_false, if_false, Bool.false_eq_true]
      rfl

theorem evidence_takeAll (target : ShardId) (ss : List σ) :
    (takeAll ops target ss).value.1 = ss.filterMap fun s => (ops.head s).map (·.evidence) := by
  induction ss with
  | nil => rfl
  | cons s ss ih =>
    rw [takeAll, List.filterMap_cons, ← ih]
    cases ops.head s with
    | none => rfl
    | some c =>
      dsimp only
      split <;> rfl

/-- One round of the search for the next candidate, and whether another one follows. -/
inductive Round (ops : StreamOps σ) (j : Conjunction σ) : Bool → Conjunction σ → Prop where
  /-- A stream has nothing in view. -/
  | exhausted : (heads? ops j.children).bind List.max? = none →
      Round ops j false { j with head := none }
  /-- A stream came to its end on the way to the target. -/
  | ended {target : ShardId} {children : List σ} :
      (heads? ops j.children).bind List.max? = some target →
      (align ops target j.children).value = (none, children) →
      Round ops j false { j with children, head := none }
  /-- A stream had to move. -/
  | moved {target : ShardId} {children : List σ} :
      (heads? ops j.children).bind List.max? = some target →
      (align ops target j.children).value = (some false, children) →
      Round ops j true { j with children }
  /-- The target was refused, or has no records. -/
  | refused {target : ShardId} {children : List σ} :
      (heads? ops j.children).bind List.max? = some target →
      (align ops target j.children).value = (some true, children) →
      Round ops j true { j with
        children := (takeAll ops target children).value.2
        asked := (askAll ops target j.asked).value.2 }
  | found {target : ShardId} {children : List σ} (e : Evidence) :
      (heads? ops j.children).bind List.max? = some target →
      (align ops target j.children).value = (some true, children) →
      Round ops j false { j with
        children := (takeAll ops target children).value.2
        asked := (askAll ops target j.asked).value.2
        head := some ⟨target, e⟩ }

theorem exists_round (ops : StreamOps σ) (n : Nat) (j : Conjunction σ) :
    ∃ again k, Round ops j again k ∧
      (j.refillWithin ops (n + 1)).value = if again then (k.refillWithin ops n).value else k := by
  rw [refillWithin]
  split
  · next hb => exact ⟨false, _, .exhausted hb, rfl⟩
  · next target hb =>
    rw [Raising.value_bind]
    cases hal : (align ops target j.children).value with
    | mk aligned children =>
      match aligned with
      | none => exact ⟨false, _, .ended hb hal, rfl⟩
      | some false => exact ⟨true, _, .moved hb hal, rfl⟩
      | some true =>
        simp only [Raising.value_bind]
        split
        · exact ⟨true, _, .refused hb hal, rfl⟩
        · split
          · exact ⟨true, _, .refused hb hal, rfl⟩
          · exact ⟨false, _, .found _ hb hal, rfl⟩

section Rounds

variable {children asked : List σ} {es : List Evidence}
variable (htarget : (heads? ops j.children).bind List.max? = some target)
include htarget

theorem refillWithin_of_ended (hal : (align ops target j.children).value.1 = none) :
    (j.refillWithin ops (n + 1)).value =
      { j with children := (align ops target j.children).value.2, head := none } := by
  rw [refillWithin, htarget]
  dsimp only
  rw [Raising.value_bind]
  cases hv : (align ops target j.children).value with
  | mk aligned children =>
    rw [hv] at hal
    obtain rfl : aligned = none := hal
    rfl

theorem refillWithin_of_moved (hal : (align ops target j.children).value = (some false, children)) :
    (j.refillWithin ops (n + 1)).value =
      (refillWithin ops n { j with children := children }).value := by
  rw [refillWithin, htarget]
  dsimp only
  rw [Raising.value_bind, hal]

theorem refillWithin_of_aligned
    (hal : (align ops target j.children).value = (some true, children))
    (hask : (askAll ops target j.asked).value = (some es, asked)) :
    (j.refillWithin ops (n + 1)).value =
      let evidence := Evidence.conj ((takeAll ops target children).value.1 ++ es) j.deferred
      let j := { j with children := (takeAll ops target children).value.2, asked := asked }
      if evidence.isEmpty then (j.refillWithin ops n).value
      else { j with head := some ⟨target, evidence⟩ } := by
  rw [refillWithin, htarget]
  dsimp only
  rw [Raising.value_bind, hal]
  dsimp only
  rw [Raising.value_bind, Raising.value_bind, hask]
  dsimp only
  split <;> rfl

end Rounds

/-- What every round keeps to, the whole search keeps to. -/
theorem refillWithin_induction {P : Conjunction σ → Prop} {Q : Conjunction σ → Prop}
    (hzero : ∀ j, P j → Q { j with head := none })
    (hagain : ∀ j k, P j → Round ops j true k → P k)
    (hlast : ∀ j k, P j → Round ops j false k → Q k) (n : Nat) (hj : P j) :
    Q (j.refillWithin ops n).value := by
  induction n generalizing j with
  | zero => exact hzero j hj
  | succ n ih =>
    obtain ⟨again, k, hround, heq⟩ := exists_round ops n j
    rw [heq]
    cases again with
    | true => exact ih (hagain j k hj hround)
    | false => exact hlast j k hj hround

section Moving

variable (h : Moves ops R)
include h

theorem align_moves (target : ShardId) (ss : List σ) :
    List.Forall₂ R ss (align ops target ss).value.2 := by
  induction ss with
  | nil => exact .nil
  | cons s ss ih =>
    rw [align]
    split
    · split
      · exact .cons (h.refl s) ih
      · rw [Raising.value_bind]
        split
        · exact .cons (h.seek target s) ih
        · exact .cons (h.seek target s) (forall₂_refl h.refl ss)
    · exact forall₂_refl h.refl (s :: ss)

theorem takeAll_moves (target : ShardId) (ss : List σ) :
    List.Forall₂ R ss (takeAll ops target ss).value.2 := by
  induction ss with
  | nil => exact .nil
  | cons s ss ih =>
    rw [takeAll_cons]
    refine .cons ?_ ih
    split
    · exact h.advance s
    · exact h.refl s

theorem Round.moves (hr : Round ops j again k) : List.Forall₂ R j.children k.children := by
  have halign : ∀ {target aligned children},
      (align ops target j.children).value = (aligned, children) →
        List.Forall₂ R j.children children := fun {target _ _} hal => by
    have hmoves := align_moves h target j.children
    rwa [hal] at hmoves
  cases hr with
  | exhausted => exact forall₂_refl h.refl j.children
  | ended _ hal => exact halign hal
  | moved _ hal => exact halign hal
  | refused _ hal => exact forall₂_trans h.trans (halign hal) (takeAll_moves h _ _)
  | found _ _ hal => exact forall₂_trans h.trans (halign hal) (takeAll_moves h _ _)

theorem refillWithin_moves (n : Nat) (j : Conjunction σ) :
    List.Forall₂ R j.children (j.refillWithin ops n).value.children := by
  refine refillWithin_induction (P := fun k => List.Forall₂ R j.children k.children)
    (Q := fun k => List.Forall₂ R j.children k.children) ?_ ?_ ?_ n (forall₂_refl h.refl _)
  · exact fun k hk => hk
  · exact fun k l hk hr => forall₂_trans h.trans hk (hr.moves h)
  · exact fun k l hk hr => forall₂_trans h.trans hk (hr.moves h)

theorem refill_moves (j : Conjunction σ) :
    List.Forall₂ R j.children (j.refill ops).value.children := refillWithin_moves h _ j

theorem advance_moves (j : Conjunction σ) :
    List.Forall₂ R j.children (j.advance ops).value.2.children := by
  unfold advance
  split
  · exact refill_moves h j
  · exact forall₂_refl h.refl j.children

theorem seek_moves (id : ShardId) (j : Conjunction σ) :
    List.Forall₂ R j.children (j.seek ops id).value.children := by
  unfold seek
  split
  · exact forall₂_trans h.trans (h.mapM_seek id j.children)
      (refill_moves h { j with children := (j.children.mapM (ops.seek id)).value })
  · exact forall₂_refl h.refl j.children

theorem answer_moves (shard : ShardId) (j : Conjunction σ) :
    List.Forall₂ R j.children (j.answer ops shard).value.2.children := by
  refine keeps_answer (W := fun k => List.Forall₂ R j.children k.children) ?_ ?_
    (forall₂_refl h.refl j.children)
  · exact fun k hk => forall₂_trans h.trans hk (advance_moves h k)
  · exact fun k hk => forall₂_trans h.trans hk (seek_moves h shard k)

end Moving

section Asking

variable (h : Asks ops A)
include h

theorem askAll_asks (target : ShardId) (ss : List σ) :
    List.Forall₂ A ss (askAll ops target ss).value.2 := by
  induction ss with
  | nil => exact .nil
  | cons s ss ih =>
    have hs := h.answer target s
    rw [askAll, Raising.value_bind]
    cases hc : (ops.answer target s).value with
    | mk c? t =>
      rw [hc] at hs
      cases c? with
      | some c => exact .cons hs ih
      | none => exact .cons hs (forall₂_refl h.refl ss)

theorem Round.asks (hr : Round ops j again k) : List.Forall₂ A j.asked k.asked := by
  have hself := forall₂_refl h.refl j.asked
  cases hr with
  | exhausted => exact hself
  | ended => exact hself
  | moved => exact hself
  | refused => exact askAll_asks h _ j.asked
  | found => exact askAll_asks h _ j.asked

theorem refillWithin_asks (n : Nat) (j : Conjunction σ) :
    List.Forall₂ A j.asked (j.refillWithin ops n).value.asked := by
  refine refillWithin_induction (P := fun k => List.Forall₂ A j.asked k.asked)
    (Q := fun k => List.Forall₂ A j.asked k.asked) ?_ ?_ ?_ n (forall₂_refl h.refl _)
  · exact fun k hk => hk
  · exact fun k l hk hr => forall₂_trans h.trans hk (hr.asks h)
  · exact fun k l hk hr => forall₂_trans h.trans hk (hr.asks h)

theorem refill_asks (j : Conjunction σ) :
    List.Forall₂ A j.asked (j.refill ops).value.asked := refillWithin_asks h _ j

theorem advance_asks (j : Conjunction σ) :
    List.Forall₂ A j.asked (j.advance ops).value.2.asked := by
  unfold advance
  split
  · exact refill_asks h j
  · exact forall₂_refl h.refl j.asked

theorem seek_asks (id : ShardId) (j : Conjunction σ) :
    List.Forall₂ A j.asked (j.seek ops id).value.asked := by
  unfold seek
  split
  · exact refill_asks h { j with children := (j.children.mapM (ops.seek id)).value }
  · exact forall₂_refl h.refl j.asked

theorem answer_asks (shard : ShardId) (j : Conjunction σ) :
    List.Forall₂ A j.asked (j.answer ops shard).value.2.asked := by
  refine keeps_answer (W := fun k => List.Forall₂ A j.asked k.asked) ?_ ?_
    (forall₂_refl h.refl j.asked)
  · exact fun k hk => forall₂_trans h.trans hk (advance_asks h k)
  · exact fun k hk => forall₂_trans h.trans hk (seek_asks h shard k)

end Asking

end Conjunction

end ShardedSearch.Merge
