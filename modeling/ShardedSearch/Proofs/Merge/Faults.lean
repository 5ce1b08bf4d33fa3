import ShardedSearch.Proofs.Merge.Awaiting
import ShardedSearch.Proofs.Merge.Draining

/-! # Faulty sources

Streams over faulty sources go along with those over sound ones until the first error is
raised. A source that is cut off by an error agrees with the sound one up to that error, and
trees of merges that differ in such leaves only agree until one of the errors comes into view.
-/

namespace ShardedSearch.Merge

variable {P : PlanError → Prop} {q : Query} {shard : ShardId}

/-- Outcomes compare until the first error is raised, which has to be of a certain kind. -/
def Comparison.untilError (P : PlanError → Prop) : Comparison where
  Rel R x y := (∃ e, x.first? = some e ∧ P e) ∨ x.errors = [] ∧ y.errors = [] ∧ R x.value y.value
  pure h := .inr ⟨rfl, rfl, h⟩
  bind {_ _ _ _ _ _ x y f g} h hf := by
    rcases h with ⟨e, he, hP⟩ | ⟨hx, hy, hxy⟩
    · refine .inl ⟨e, ?_, hP⟩
      obtain ⟨es, hes⟩ := List.head?_eq_some_iff.mp he
      rw [Raising.first?, Raising.errors_bind, hes]
      rfl
    · rcases hf _ _ hxy with ⟨e, he, hP⟩ | ⟨hx', hy', hfg⟩
      · refine .inl ⟨e, ?_, hP⟩
        rw [Raising.first?, Raising.errors_bind, hx]
        exact he
      · refine .inr ⟨?_, ?_, hfg⟩
        · rw [Raising.errors_bind, hx, hx']
          rfl
        · rw [Raising.errors_bind, hy, hy']
          rfl

def Comparison.values : Comparison where
  Rel R x y := R x.value y.value
  pure h := h
  bind h hf := hf _ _ h

/-! ### Sources -/

/-- Candidates with errors that are cut off at the first error, but for that the given ones. -/
inductive CutOff (P : PlanError → Prop) :
    List (Option PlanError × Candidate) → Option PlanError → List Candidate → Prop where
  | nil : CutOff P [] none []
  | cons {c items ending cs} : CutOff P items ending cs →
      CutOff P ((none, c) :: items) ending (c :: cs)
  | broken {e c items ending cs} : P e → CutOff P ((some e, c) :: items) ending cs
  | ended {e cs} : P e → CutOff P [] (some e) cs

variable {cs : List Candidate} {items : List (Option PlanError × Candidate)}
variable {ending : Option PlanError}

theorem cutOff_ofList (cs : List Candidate) :
    CutOff P (Source.ofList cs).items (Source.ofList cs).ending cs := by
  induction cs with
  | nil => exact .nil
  | cons c cs ih => exact .cons ih

def ViewCutOff (P : PlanError → Prop) (p p' : Option Candidate × Source) : Prop :=
  p.1 = p'.1 ∧ ∃ cs, p'.2 = .ofList cs ∧ CutOff P p.2.items p.2.ending cs

namespace Source

theorem pull_cutOff (h : CutOff P items ending cs) :
    (Comparison.untilError P).Rel (ViewCutOff P) (pull ⟨items, ending⟩) (ofList cs).pull := by
  cases h with
  | nil => exact .inr ⟨rfl, rfl, rfl, [], rfl, .nil⟩
  | cons h => exact .inr ⟨rfl, rfl, rfl, _, rfl, h⟩
  | broken hP => exact .inl ⟨_, rfl, hP⟩
  | ended hP => exact .inl ⟨_, rfl, hP⟩

theorem skipTo_cutOff (h : CutOff P items ending cs) (c : Candidate) :
    (Comparison.untilError P).Rel (ViewCutOff P) (skipTo shard ending c items)
      (skipTo shard none c (ofList cs).items) := by
  have hstay : ∀ {c items ending cs}, CutOff P items ending cs →
      Shard.precedes c.shard shard = false →
      (Comparison.untilError P).Rel (ViewCutOff P) (skipTo shard ending c items)
        (skipTo shard none c (ofList cs).items) := by
    intro c items ending cs h hp
    have hleft := @Leaf.skipTo_of_not_precedes shard c ⟨items, ending⟩ hp
    have hright := @Leaf.skipTo_of_not_precedes shard c (ofList cs) hp
    exact hleft ▸ hright ▸ .inr ⟨rfl, rfl, rfl, cs, rfl, h⟩
  induction h generalizing c with
  | nil =>
    cases hp : Shard.precedes c.shard shard with
    | false => exact hstay .nil hp
    | true =>
      rw [skipTo, ofList, List.map_nil, skipTo, if_pos hp]
      exact .inr ⟨rfl, rfl, rfl, [], rfl, .nil⟩
  | cons h ih =>
    cases hp : Shard.precedes c.shard shard with
    | false => exact hstay (.cons h) hp
    | true =>
      rw [skipTo, ofList, List.map_cons, skipTo, if_pos hp, if_pos hp]
      exact ih _
  | broken hP =>
    cases hp : Shard.precedes c.shard shard with
    | false => exact hstay (.broken hP) hp
    | true =>
      rw [skipTo, if_pos hp]
      exact .inl ⟨_, rfl, hP⟩
  | ended hP =>
    cases hp : Shard.precedes c.shard shard with
    | false => exact hstay (.ended hP) hp
    | true =>
      rw [skipTo, if_pos hp]
      exact .inl ⟨_, rfl, hP⟩

end Source

/-! ### Leaves -/

inductive LeafState.CutOff (P : PlanError → Prop) : LeafState → LeafState → Prop where
  | present {head : Option Candidate} {rest : Source} {cs : List Candidate} :
      Merge.CutOff P rest.items rest.ending cs →
      CutOff P (.present head rest) (.present head (.ofList cs))
  | absent : CutOff P .absent .absent
  | skipped : CutOff P .skipped .skipped
  | delayed : CutOff P .delayed .delayed

namespace Leaf

/-- Leaves that differ in a source that is cut off. -/
structure CutOff (P : PlanError → Prop) (l m : Leaf) : Prop where
  query : l.query = m.query
  state : l.state.CutOff P m.state

theorem cutOff_stateOf {p p' : Option Candidate × Source} (h : ViewCutOff P p p') :
    CutOff P ⟨q, stateOf p⟩ ⟨q, stateOf p'⟩ := by
  obtain ⟨c?, rest⟩ := p
  obtain ⟨c?', rest'⟩ := p'
  obtain ⟨rfl, cs, rfl, hcut⟩ := h
  cases c? with
  | none => exact ⟨rfl, .absent⟩
  | some c => exact ⟨rfl, .present hcut⟩

theorem leafSimilar_cutOff : LeafSimilar (.untilError P) (CutOff P) where
  settled {l m} h := by
    obtain ⟨q, state⟩ := l
    obtain ⟨q', state'⟩ := m
    obtain ⟨-, h⟩ := h
    cases h <;> exact ⟨fun _ he => (nomatch he), fun _ he => (nomatch he)⟩
  context {l m} h := by
    obtain ⟨q, state⟩ := l
    obtain ⟨q', state'⟩ := m
    obtain ⟨-, h⟩ := h
    cases h <;> rfl
  query h := h.query
  head {l m} h := by
    obtain ⟨q, state⟩ := l
    obtain ⟨q', state'⟩ := m
    obtain ⟨-, h⟩ := h
    cases h <;> rfl
  advance {l m} h := by
    obtain ⟨q, state⟩ := l
    obtain ⟨q', state'⟩ := m
    obtain ⟨rfl, h⟩ := h
    cases h with
    | @present head rest cs hcut =>
      cases head with
      | none => exact .inr ⟨rfl, rfl, rfl, rfl, .present hcut⟩
      | some c =>
        rw [advance_of_head rfl, advance_of_head rfl]
        refine Comparison.bind _ (Source.pull_cutOff hcut) fun p p' hp => ?_
        obtain ⟨hhead, cs, hrest, hcut⟩ := hp
        refine .inr ⟨rfl, rfl, rfl, rfl, ?_⟩
        dsimp only
        rw [hhead, hrest]
        exact .present hcut
    | absent => exact .inr ⟨rfl, rfl, rfl, rfl, .absent⟩
    | skipped => exact .inr ⟨rfl, rfl, rfl, rfl, .skipped⟩
    | delayed => exact .inr ⟨rfl, rfl, rfl, rfl, .delayed⟩
  seek {l m} id h := by
    obtain ⟨q, state⟩ := l
    obtain ⟨q', state'⟩ := m
    obtain ⟨rfl, h⟩ := h
    cases h with
    | @present head rest cs hcut =>
      cases head with
      | none => exact .inr ⟨rfl, rfl, rfl, .present hcut⟩
      | some c =>
        rw [seek_of_head rfl, seek_of_head rfl]
        refine Comparison.bind _ (Source.skipTo_cutOff hcut c) fun p p' hp => ?_
        obtain ⟨hhead, cs, hrest, hcut⟩ := hp
        refine .inr ⟨rfl, rfl, rfl, ?_⟩
        dsimp only
        rw [hhead, hrest]
        exact .present hcut
    | absent => exact .inr ⟨rfl, rfl, rfl, .absent⟩
    | skipped => exact .inr ⟨rfl, rfl, rfl, .skipped⟩
    | delayed => exact .inr ⟨rfl, rfl, rfl, .delayed⟩

theorem ofList_cutOff (q : Query) (cs : List Candidate) :
    CutOff P (.ofList q cs) (.ofList q cs) := by
  cases cs with
  | nil => exact ⟨rfl, .absent⟩
  | cons c cs => exact ⟨rfl, .present (cutOff_ofList cs)⟩

end Leaf

/-! ### Looking up -/

/-- Look-ups of which the second one is sound and the first one as good until it raises an
error. Both are lost, deferred, or come to sources. -/
inductive Lookup.CutOff (P : PlanError → Prop) : Lookup → Lookup → Prop where
  | found {source : Source} {cs : List Candidate} :
      Merge.CutOff P source.items source.ending cs →
      CutOff P ⟨none, .ok source⟩ ⟨none, .ok (.ofList cs)⟩
  | raised {e : PlanError} {source source' : Source} : P e →
      CutOff P ⟨some e, .ok source⟩ ⟨none, .ok source'⟩
  | failed {e : Wire.WireError} {source' : Source} : P (.wire e) →
      CutOff P ⟨none, .error (.wire e)⟩ ⟨none, .ok source'⟩
  | deferred {e e' : Store.StoreError} :
      CutOff P ⟨none, .error (.store e)⟩ ⟨none, .error (.store e')⟩
  | lost : CutOff P ⟨none, .error .abandoned⟩ ⟨none, .error .abandoned⟩

namespace Leaf

variable {l l' : Lookup}

theorem isAbandoned_of_cutOff (h : l.CutOff P l') :
    isAbandoned ⟨q, .pending l⟩ = isAbandoned ⟨q, .pending l'⟩ := by
  cases h <;> rfl

theorem resolve_cutOff (h : l.CutOff P l') (hl : isAbandoned ⟨q, .pending l⟩ = false) :
    (Comparison.untilError P).Rel (CutOff P) (resolve ⟨q, .pending l⟩)
      (resolve ⟨q, .pending l'⟩) := by
  cases h with
  | @found source cs hcut =>
    have hresolve : ∀ source : Source, resolve ⟨q, .pending ⟨none, .ok source⟩⟩ = (do
        let p ← source.pull
        pure ⟨q, stateOf p⟩) := fun _ => rfl
    rw [hresolve, hresolve]
    exact Comparison.bind _ (Source.pull_cutOff hcut) fun p p' hp =>
      .inr ⟨rfl, rfl, cutOff_stateOf hp⟩
  | raised hP => exact .inl ⟨_, rfl, hP⟩
  | failed hP => exact .inl ⟨_, rfl, hP⟩
  | deferred => exact .inr ⟨rfl, rfl, rfl, .delayed⟩
  | lost => cases hl

end Leaf

/-! ### Contexts of merges -/

/-- A stream in this context neither waits for a look-up nor is left out. -/
def Context.TakesPart (c : Context) : Prop := c ≠ .pending ∧ c ≠ .skipped

section

variable {σ : Type} {ops : StreamOps σ}

theorem Disjunction.context_refill (d : Disjunction σ) :
    (d.refill ops).value.context = d.context := by
  unfold refill
  split <;> rfl

theorem Disjunction.takesPart_contextOf (children : List σ) (deferred : List Query) :
    (contextOf children deferred).TakesPart := by
  unfold contextOf
  split <;> exact ⟨Context.noConfusion, Context.noConfusion⟩

theorem Conjunction.context_refillWithin (n : Nat) (j : Conjunction σ) :
    (j.refillWithin ops n).value.context = j.context := by
  have hround : ∀ k l again, k.context = j.context → Round ops k again l →
      l.context = j.context := by
    intro k l again hk hr
    cases hr <;> exact hk
  exact refillWithin_induction (P := fun k => k.context = j.context)
    (Q := fun k => k.context = j.context) (fun _ hk => hk) (fun k l => hround k l true)
    (fun k l => hround k l false) n rfl

theorem Conjunction.takesPart_ofStreams (q : Query) (ss : List σ) :
    (ofStreams ops q ss).value.context.TakesPart := by
  unfold ofStreams
  dsimp only
  split
  · exact ⟨Context.noConfusion, Context.noConfusion⟩
  · split
    · rw [refill, context_refillWithin]
      exact ⟨Context.noConfusion, Context.noConfusion⟩
    · split
      · rw [refill, context_refillWithin]
        exact ⟨Context.noConfusion, Context.noConfusion⟩
      · split <;> exact ⟨Context.noConfusion, Context.noConfusion⟩

end

/-! ### Trees -/

namespace Stream

variable {s t : Stream} {ss ts : List Stream} {R : Leaf → Leaf → Prop} {k n : Nat}

theorem alike_mono (hst : Alike R k s t) (hk : k ≤ n) : Alike R n s t := by
  induction k generalizing n s t with
  | zero => cases hst
  | succ k ih =>
    obtain ⟨n, rfl⟩ := Nat.exists_eq_succ_of_ne_zero (by omega : n ≠ 0)
    have hall : ∀ {ss ts}, List.Forall₂ (Alike R k) ss ts → List.Forall₂ (Alike R n) ss ts :=
      fun h => h.imp fun _ _ h => ih h (Nat.le_of_succ_le_succ hk)
    cases hst with
    | leaf h => exact .leaf h
    | disjunction h => exact .disjunction { h with children := hall h.children }
    | conjunction h =>
      exact .conjunction { h with children := hall h.children, asked := hall h.asked }

theorem height_of_alike (hst : Alike R k s t) :
    s.height = t.height ∧ Alike R s.height s t := by
  induction k generalizing s t with
  | zero => cases hst
  | succ k ih =>
    have hall : ∀ {ss ts}, List.Forall₂ (Alike R k) ss ts →
        heightOfAll ss = heightOfAll ts ∧
          ∀ n, heightOfAll ss ≤ n → List.Forall₂ (Alike R n) ss ts := by
      intro ss ts h
      induction h with
      | nil => exact ⟨rfl, fun _ _ => .nil⟩
      | @cons s t ss ts hst _ ihs =>
        obtain ⟨hheight, hself⟩ := ih hst
        obtain ⟨hheights, hselves⟩ := ihs
        rw [heightOfAll, heightOfAll, hheight, hheights]
        refine ⟨rfl, fun n hn => .cons ?_ (hselves n ?_)⟩
        · exact alike_mono hself (hheight ▸ (Nat.le_max_left _ _).trans hn)
        · exact hheights ▸ (Nat.le_max_right _ _).trans hn
    cases hst with
    | leaf h => exact ⟨rfl, .leaf h⟩
    | @disjunction d e h =>
      obtain ⟨hheight, hself⟩ := hall h.children
      rw [height, height, heightOfDisjunction, heightOfDisjunction, hheight]
      exact ⟨rfl, .disjunction { h with children := hself _ (Nat.le_of_eq hheight) }⟩
    | @conjunction i j h =>
      obtain ⟨hheight, hself⟩ := hall h.children
      obtain ⟨hheight', hself'⟩ := hall h.asked
      rw [height, height, heightOfConjunction, heightOfConjunction, hheight, hheight']
      exact ⟨rfl, .conjunction { h with
        children := hself _ (hheight ▸ Nat.le_max_left _ _)
        asked := hself' _ (hheight' ▸ Nat.le_max_right _ _) }⟩

theorem heightOfAll_of_alike (h : List.Forall₂ (fun s t => ∃ k, Alike R k s t) ss ts) :
    heightOfAll ss = heightOfAll ts ∧ List.Forall₂ (Alike R (heightOfAll ss)) ss ts := by
  induction h with
  | nil => exact ⟨rfl, .nil⟩
  | cons hst _ ih =>
    obtain ⟨k, hst⟩ := hst
    obtain ⟨hheight, hself⟩ := height_of_alike hst
    rw [heightOfAll, heightOfAll, hheight, ih.1]
    refine ⟨rfl, .cons (alike_mono hself (hheight ▸ Nat.le_max_left _ _)) ?_⟩
    exact ih.2.imp fun _ _ h => alike_mono h (ih.1 ▸ Nat.le_max_right _ _)

theorem isLost_of_settled (hs : Settled n s) : s.isLost = false := by
  cases n with
  | zero => cases hs
  | succ n =>
    cases s with
    | leaf l =>
      rw [isLost, Leaf.isAbandoned]
      split
      · next he => exact absurd he (hs _)
      · rfl
    | _ => rfl

theorem await_of_settled (hs : Settled n s) : s.await = pure s := by
  rw [await_of_not_isLost (isLost_of_settled hs), resolve_of_settled hs]
  rfl

/-- Streams that are the same but for a look-up, or for leaves, that are cut off. -/
inductive MadeCutOff (P : PlanError → Prop) : Stream → Stream → Prop where
  | pending {q : Query} {l l' : Lookup} : l.CutOff P l' →
      MadeCutOff P (.leaf ⟨q, .pending l⟩) (.leaf ⟨q, .pending l'⟩)
  | alike {k : Nat} {s t : Stream} : Alike (Leaf.CutOff P) k s t → MadeCutOff P s t

theorem context_of_madeCutOff (h : MadeCutOff P s t) : s.context = t.context := by
  cases h with
  | pending => rfl
  | alike h => exact context_of_alike Leaf.leafSimilar_cutOff h

/-- Trees that are alike take the same candidate, unless an error is raised on the way. -/
theorem advance_of_alike (hst : Alike (Leaf.CutOff P) k s t) :
    s.advance.value.1 = t.advance.value.1 ∧
      (Comparison.untilError P).Rel (Both (Alike (Leaf.CutOff P) k)) s.advance t.advance := by
  obtain ⟨hs, ht⟩ := settled_of_alike Leaf.leafSimilar_cutOff (Nat.le_refl k) hst
  have hsim := similar (Leaf.leafSimilar_cutOff : LeafSimilar (.untilError P) _)
    (Nat.le_refl k) (Nat.le_refl k)
  rw [advance_eq hs, advance_eq ht, hsim.left.taken hs, hsim.right.taken ht]
  exact ⟨hsim.head hst, hsim.advance hst⟩

/-- Until an error is raised, the candidates are those of the other tree. -/
theorem gives_of_alike {e? e?' : Option PlanError} {cs' : List Candidate}
    (hst : Alike (Leaf.CutOff P) k s t) (h : Gives s cs e?) (h' : Gives t cs' e?') :
    cs <+: cs' ∧ (∀ e ∈ e?, P e) ∧ (e? = none → cs = cs' ∧ e?' = none) := by
  induction h generalizing t cs' with
  | @ended s hc he =>
    refine ⟨List.nil_prefix, by simp, fun _ => ?_⟩
    obtain ⟨htake, hrel⟩ := advance_of_alike hst
    rw [hc] at htake
    cases h' with
    | ended => exact ⟨rfl, rfl⟩
    | broken hc' => rw [hc'] at htake; cases htake
    | cons hc' => rw [hc'] at htake; cases htake
  | @broken s c e hc he =>
    obtain ⟨htake, hrel⟩ := advance_of_alike hst
    rw [hc] at htake
    rcases hrel with ⟨e', he', hP⟩ | ⟨herr, -⟩
    · obtain rfl : e' = e := Option.some.inj (he'.symm.trans he)
      refine ⟨?_, by simpa using hP, nofun⟩
      cases h' with
      | ended hc' => rw [hc'] at htake; cases htake
      | broken hc' =>
        obtain rfl := Option.some.inj (htake.trans hc')
        exact List.prefix_rfl
      | cons hc' =>
        obtain rfl := Option.some.inj (htake.trans hc')
        exact ⟨_, rfl⟩
    · rw [Raising.first?, herr] at he
      cases he
  | @cons s c cs e? hc he _ ih =>
    obtain ⟨htake, hrel⟩ := advance_of_alike hst
    rw [hc] at htake
    rcases hrel with ⟨e', he', -⟩ | ⟨-, herr, -, hnext⟩
    · rw [he'] at he
      cases he
    · cases h' with
      | ended hc' => rw [hc'] at htake; cases htake
      | broken hc' he' =>
        rw [Raising.first?, herr] at he'
        cases he'
      | cons hc' _ hrest =>
        obtain rfl := Option.some.inj (htake.trans hc')
        obtain ⟨hfront, hkind, hsame⟩ := ih hnext hrest
        refine ⟨List.cons_prefix_cons.mpr ⟨rfl, hfront⟩, hkind, fun hnone => ?_⟩
        obtain ⟨rfl, rfl⟩ := hsame hnone
        exact ⟨rfl, rfl⟩

end Stream

end ShardedSearch.Merge
