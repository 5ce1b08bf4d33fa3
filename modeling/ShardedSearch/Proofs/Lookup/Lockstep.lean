import ShardedSearch.Proofs.Lookup.Making
import ShardedSearch.Proofs.Merge.Lockstep

/-! # Making streams in lockstep

The streams of one query in two look-up contexts are made in the same way. If their leaves
compare, and whatever is made of streams that compare, so do the streams of the query.
-/

namespace ShardedSearch

open Merge (Leaf Stream)
open Merge.Stream (Making)

namespace Lookup

inductive ExceptLike {ε α β : Type} (R : α → β → Prop) : Except ε α → Except ε β → Prop where
  | ok {a : α} {b : β} : R a b → ExceptLike R (.ok a) (.ok b)
  | error (e : ε) : ExceptLike R (.error e) (.error e)

def MakesLike {α β : Type} (C : Merge.Comparison) (R : α → β → Prop) (m : Making α) (m' : Making β) :
    Prop :=
  C.Rel (ExceptLike R) m.run m'.run

variable {C : Merge.Comparison} {α β γ δ : Type} {R : α → β → Prop} {S : γ → δ → Prop}
variable {m : Making α} {m' : Making β}

theorem makesLike_pure {a : α} {b : β} (h : R a b) : MakesLike C R (pure a) (pure b) :=
  C.pure (.ok h)

theorem makesLike_throw (f : Failure) : MakesLike C R (throw f) (throw f) :=
  C.pure (.error f)

theorem makesLike_bind {f : α → Making γ} {g : β → Making δ} (h : MakesLike C R m m')
    (hfg : ∀ a b, R a b → MakesLike C S (f a) (g b)) : MakesLike C S (m >>= f) (m' >>= g) := by
  rw [MakesLike, ExceptT.run_bind, ExceptT.run_bind]
  refine C.bind h fun a b hab => ?_
  cases hab with
  | ok hab => exact hfg _ _ hab
  | error e => exact C.pure (.error e)

theorem makesLike_lift {x : Raising α} {y : Raising β} (h : C.Rel R x y) :
    MakesLike C R (liftM x) (liftM y) :=
  C.map h fun _ _ => .ok

variable {x : LookupContext} {q : Query} {s : Stream} {ss ts : List Stream}

/-! ### Queries -/

/-- Look-up contexts of which all leaves compare, with how streams compare before and after they
are looked up. -/
structure Parallel (C : Merge.Comparison) (x y : LookupContext)
    (R A : Stream → Stream → Prop) : Prop where
  config : x.config = y.config
  counts : x.counts = y.counts
  skipped : ∀ {s t}, R s t → (s.context = .skipped ↔ t.context = .skipped)
  queued : ∀ {s t}, R s t → Stream.QueuedAlike s t
  listed : ∀ q cs, R (.leaf (.ofList q cs)) (.leaf (.ofList q cs))
  delayed : ∀ q, R (leaf q .delayed) (leaf q .delayed)
  omitted : ∀ q, R (leaf q .skipped) (leaf q .skipped)
  term : ∀ place q field value, R (term x place q field value) (term y place q field value)
  interval : ∀ place q field lower upper li ui,
    R (interval x place q field lower upper li ui) (interval y place q field lower upper li ui)
  await : ∀ {s t}, R s t → MakesLike C A s.await t.await
  any : ∀ q {ss ts}, List.Forall₂ A ss ts → C.Rel R (joinAny q ss) (joinAny q ts)
  all : ∀ q {ss ts}, List.Forall₂ A ss ts → C.Rel R (joinAll q ss) (joinAll q ts)

namespace Parallel

variable {x y : LookupContext} {R A : Stream → Stream → Prop} {place : Place} {field : String}
variable (h : Parallel C x y R A)
include h

theorem absent (q : Query) : R (leaf q .absent) (leaf q .absent) := h.listed q []

theorem equality {literal : Option String} :
    R (equality x place q field literal) (equality y place q field literal) := by
  unfold Lookup.equality
  rw [← h.config]
  split
  · exact h.absent q
  · split
    · exact h.delayed q
    · split
      · exact h.delayed q
      · split
        · exact h.absent q
        · split
          · exact h.delayed q
          · exact h.term ..

theorem condition : R (condition q field) (condition q field) := by
  unfold Lookup.condition
  split
  · exact h.absent q
  · exact h.delayed q

theorem pool : Lookup.pool x = Lookup.pool y := by
  rw [Lookup.pool, Lookup.pool, h.config]

theorem enumeration (cs : Option (List Candidate)) :
    MakesLike C R (liftM (enumeration q cs)) (liftM (enumeration q cs)) := by
  cases cs with
  | some cs => exact makesLike_pure (h.listed q cs)
  | none => exact makesLike_throw .unwound

theorem exceeded : MakesLike C R (liftM (exceeded x q)) (liftM (exceeded y q)) := by
  have heq : Lookup.exceeded y q = Lookup.exceeded x q := by
    rw [Lookup.exceeded, Lookup.exceeded, indexOnlyField?, indexOnlyField?, h.config, h.counts]
  rw [heq, Lookup.exceeded]
  generalize (if x.config.settings.lookup.evaluatesExceeded then none
    else indexOnlyField? x q) = field?
  cases field? with
  | some field => exact makesLike_throw (.error (.unboundedField field))
  | none => exact h.enumeration _

theorem marked {m : Marker} {cs : List Query} :
    MakesLike C R (liftM (marked x place q m cs)) (liftM (marked y place q m cs)) := by
  unfold Lookup.marked
  split
  · exact makesLike_pure (h.delayed q)
  · exact makesLike_pure (h.delayed q)
  · exact makesLike_pure (h.delayed q)
  · exact makesLike_pure (h.delayed q)
  · exact makesLike_pure (h.omitted q)
  · exact h.exceeded
  · exact h.exceeded
  · split
    · rw [← h.config]
      refine makesLike_pure ?_
      split
      · exact h.interval ..
      · exact h.delayed q
    · exact makesLike_pure (h.delayed q)

theorem awaitAll (hst : List.Forall₂ R ss ts) :
    MakesLike C (List.Forall₂ A) (Stream.awaitAll ss) (Stream.awaitAll ts) := by
  induction hst with
  | nil => exact makesLike_pure .nil
  | cons hst _ ih =>
    refine makesLike_bind (h.await hst) fun _ _ hst => ?_
    exact makesLike_bind ih fun _ _ hts => makesLike_pure (.cons hst hts)

theorem resolveAll (hst : List.Forall₂ R ss ts) (p : Option WorkerPool) :
    MakesLike C (List.Forall₂ A) (Stream.resolveAll p ss) (Stream.resolveAll p ts) := by
  rw [Stream.resolveAll, Stream.resolveAll,
    Stream.obstacle?_congr (hst.imp fun _ _ hst => h.queued hst)]
  split
  · exact makesLike_throw _
  · exact h.awaitAll hst

theorem disjunction (hst : List.Forall₂ R ss ts) :
    MakesLike C R (disjunction x q ss) (disjunction y q ts) := by
  rw [disjunction_eq, disjunction_eq, h.pool]
  exact makesLike_bind (h.resolveAll hst _) fun _ _ hr => makesLike_lift (h.any q hr)

theorem conjunction (hst : List.Forall₂ R ss ts) :
    MakesLike C R (conjunction x q ss) (conjunction y q ts) := by
  rw [conjunction_eq, conjunction_eq, h.pool]
  exact makesLike_bind (h.resolveAll hst _) fun _ _ hr => makesLike_lift (h.all q hr)

end Parallel

variable {x y : LookupContext} {R A : Stream → Stream → Prop}

mutual

/-- The streams of a query compare if their leaves do. -/
theorem Parallel.streamOf (h : Parallel C x y R A) (place : Place) (q : Query) :
    MakesLike C R (streamOf x place q) (streamOf y place q) := by
  match q with
  | .equality .. => exact makesLike_pure h.equality
  | .range .. => exact makesLike_pure h.condition
  | .compare .. => exact makesLike_pure h.condition
  | .regex .. => exact makesLike_pure h.condition
  | .not q => exact makesLike_pure (h.delayed _)
  | .function .. => exact makesLike_pure (h.delayed _)
  | .true => exact makesLike_pure (h.delayed _)
  | .false => exact makesLike_pure (h.absent _)
  | .assignment name value =>
    rw [Lookup.streamOf, Lookup.streamOf, h.counts]
    split
    · exact h.enumeration _
    · exact makesLike_pure (h.omitted _)
  | .marked .. => exact h.marked
  | .and cs => exact makesLike_bind (h.streamsOf place 0 cs) fun _ _ hst => h.conjunction hst
  | .or cs => exact makesLike_bind (h.streamsOf place 0 cs) fun _ _ hst => h.disjunction hst

theorem Parallel.streamsOf (h : Parallel C x y R A) (place : Place) (position : Nat)
    (qs : List Query) :
    MakesLike C (List.Forall₂ R) (streamsOf x place position qs)
      (streamsOf y place position qs) := by
  match qs with
  | [] => exact makesLike_pure .nil
  | q :: qs =>
    refine makesLike_bind (h.streamOf (position :: place) q) fun s t hst => ?_
    refine makesLike_bind (h.streamsOf place (position + 1) qs) fun ss ts hts => ?_
    refine makesLike_pure ?_
    by_cases hskip : s.context = .skipped
    · rw [if_pos hskip, if_pos ((h.skipped hst).mp hskip)]
      exact hts
    · rw [if_neg hskip, if_neg fun ht => hskip ((h.skipped hst).mpr ht)]
      exact .cons hst hts

end

theorem Parallel.rootOf (h : Parallel C x y R A) (q : Query) :
    MakesLike C A (rootOf x q) (rootOf y q) :=
  makesLike_bind (h.streamOf [] q) fun _ _ hst => h.await hst

end Lookup

end ShardedSearch
