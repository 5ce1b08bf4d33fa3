import ShardedSearch.Proofs.Lookup.Lockstep
import ShardedSearch.Proofs.Merge.Made
import ShardedSearch.Proofs.Merge.Reordering

/-! # Streams of reordered queries

The streams of reordered queries are rearranged once they are looked up. What is looked up is
the same clause on both sides, as only joins are reordered and those are not looked up; what is
listed without looking it up is listed for equivalent clauses.
-/

namespace ShardedSearch

open Merge (Leaf LeafState Stream)
open Merge.Stream (Making Rearranged exists_of_bind)
open Query (Reorders)

namespace Lookup

variable {x : LookupContext} {p q : Query} {s t : Stream} {ss ts : List Stream} {state : LeafState}

/-- All clauses are looked up with the same scanner, or with none. -/
def IsUniform (x : LookupContext) : Prop := ∀ place place', x.scannerAt place = x.scannerAt place'

/-- The streams of reordered clauses, which may be still to be looked up. -/
inductive Akin : Stream → Stream → Prop where
  | same (l : Leaf) : Akin (.leaf l) (.leaf l)
  | rearranged {s t : Stream} {n : Nat} : Rearranged n s t → Akin s t

theorem Akin.context (h : Akin s t) : s.context = t.context := by
  cases h with
  | same => rfl
  | rearranged h => exact Merge.Stream.context_of_rearranged h

theorem Akin.await {s' t' : Stream} (h : Akin s t) (hs : s.await.run.value = .ok s')
    (ht : t.await.run.value = .ok t') : ∃ n, Rearranged n s' t' := by
  cases h with
  | same l =>
    obtain rfl : s' = t' := Except.ok.inj (hs.symm.trans ht)
    rw [Merge.Stream.await] at hs
    split at hs
    · cases hs
    · obtain rfl : Stream.leaf l.resolve.value = s' := Except.ok.inj hs
      exact ⟨1, .leaf (Leaf.rearranged_self l.settled_resolve)⟩
  | @rearranged s t n h =>
    obtain ⟨hws, hwt⟩ := (Merge.Stream.rearranging n).settled h
    rw [Merge.Stream.await_of_settled hws] at hs
    rw [Merge.Stream.await_of_settled hwt] at ht
    obtain rfl := Except.ok.inj hs
    obtain rfl := Except.ok.inj ht
    exact ⟨n, h⟩

/-! ### Leaves -/

theorem rearranged_leaf (hq : p.Equivalent q) (hstate : state.Agrees state) :
    Rearranged 1 (leaf p state) (leaf q state) := .leaf ⟨hq, hstate⟩

theorem akin_unknown {ids : List ShardId} (hq : p.Equivalent q) :
    Akin (.leaf (.ofList p (ids.map (unknownAt p))))
      (.leaf (.ofList q (ids.map (unknownAt q)))) := by
  refine .rearranged (n := 1) (.leaf (Leaf.ofList_rearranged hq ?_))
  refine List.forall₂_map_left_iff.mpr (List.forall₂_map_right_iff.mpr ?_)
  exact List.forall₂_same.mpr fun id _ => ⟨rfl, Evidence.agree_unknown hq⟩

def Makes (x : LookupContext) (q : Query) (s : Stream) : Prop :=
  ∃ place, (streamOf x place q).run.value = .ok s

theorem term_eq (hx : IsUniform x) (place place' : Place) (field value : String) :
    term x place q field value = term x place' q field value := by
  simp only [term, openScanner, hx place place']

theorem interval_eq (hx : IsUniform x) (place place' : Place) (field lower upper : String)
    (li ui : Bool) :
    interval x place q field lower upper li ui = interval x place' q field lower upper li ui := by
  simp only [interval, openScanner, hx place place']

theorem equality_eq (hx : IsUniform x) (place place' : Place) (field : String)
    (literal : Option String) :
    equality x place q field literal = equality x place' q field literal := by
  simp only [equality, term_eq hx place place']

theorem akin_of_eq {l : Leaf} (hs : s = .leaf l) (ht : s = t) : Akin s t := by
  subst hs ht
  exact .same l

theorem akin_interval (hx : IsUniform x) (place place' : Place) (field lower upper : String)
    (li ui : Bool) : Akin (interval x place q field lower upper li ui)
      (interval x place' q field lower upper li ui) := by
  rw [interval_eq hx place place', interval]
  dsimp only
  split <;> exact .same _

theorem marked_of_ne_range {place : Place} {cs : List Query}
    (hne : ∀ field lower upper li ui, cs ≠ [.range field lower upper li ui]) :
    marked x place q .boundedRange cs = .ok (leaf q .delayed) := by
  unfold marked
  dsimp only
  split
  · exact absurd rfl (hne _ _ _ _ _)
  · rfl

theorem akin_boundedRange (hx : IsUniform x) {cs ds : List Query} {place place' : Place}
    (hcs : List.Forall₂ Reorders cs ds)
    (hs : marked x place (.marked .boundedRange cs) .boundedRange cs = .ok s)
    (ht : marked x place' (.marked .boundedRange ds) .boundedRange ds = .ok t) : Akin s t := by
  by_cases hrange : ∃ field lower upper li ui, cs = [.range field lower upper li ui]
  · obtain ⟨field, lower, upper, li, ui, rfl⟩ := hrange
    -- a range is not reordered
    obtain rfl : [.range field lower upper li ui] = ds := by
      cases hcs with
      | cons hcd hrest =>
        cases hcd
        cases hrest
        rfl
    obtain rfl := Except.ok.inj hs
    obtain rfl := Except.ok.inj ht
    split
    · exact akin_interval hx ..
    · exact .same _
  · have hne : ∀ field lower upper li ui, cs ≠ [.range field lower upper li ui] :=
      fun field lower upper li ui he => hrange ⟨field, lower, upper, li, ui, he⟩
    have hne' : ∀ field lower upper li ui, ds ≠ [.range field lower upper li ui] := by
      rintro field lower upper li ui rfl
      cases hcs with
      | cons hcd hrest =>
        cases hcd
        cases hrest
        exact hne _ _ _ _ _ rfl
    rw [marked_of_ne_range hne] at hs
    rw [marked_of_ne_range hne'] at ht
    obtain rfl := Except.ok.inj hs
    obtain rfl := Except.ok.inj ht
    exact .rearranged (rearranged_leaf (Reorders.marked hcs).equivalent .delayed)

theorem akin_exceeded (hq : p.Equivalent q) (hs : exceeded x p = .ok s)
    (ht : exceeded x q = .ok t) : Akin s t := by
  rw [eq_of_exceeded hs, eq_of_exceeded ht]
  exact akin_unknown hq

theorem akin_marked (hx : IsUniform x) {m : Marker} {cs ds : List Query} (place place' : Place)
    (hcs : List.Forall₂ Reorders cs ds) (hs : marked x place (.marked m cs) m cs = .ok s)
    (ht : marked x place' (.marked m ds) m ds = .ok t) : Akin s t := by
  have hreorders : Reorders (.marked m cs) (.marked m ds) := .marked hcs
  have hleaf : ∀ {state : LeafState}, state.Agrees state →
      Akin (leaf (.marked m cs) state) (leaf (.marked m ds) state) := fun hstate =>
    .rearranged (rearranged_leaf hreorders.equivalent hstate)
  cases m with
  | boundedRange => exact akin_boundedRange hx hcs hs ht
  | exceededValue => exact akin_exceeded hreorders.equivalent hs ht
  | exceededOr => exact akin_exceeded hreorders.equivalent hs ht
  | dropped =>
    obtain rfl := Except.ok.inj hs
    obtain rfl := Except.ok.inj ht
    exact hleaf .skipped
  | _ =>
    obtain rfl := Except.ok.inj hs
    obtain rfl := Except.ok.inj ht
    exact hleaf .delayed

/-! ### Joins -/

theorem joinAll_rearranged (hq : p.Equivalent q)
    (hr : Matched (fun s t => ∃ n, Rearranged n s t) ss ts) :
    ∃ n, Rearranged n (joinAll p ss).value (joinAll q ts).value := by
  obtain ⟨n, h⟩ := Merge.Stream.conjunction_ofStreams_rearranged hq hr
  have hcontext := Merge.Stream.context_of_rearranged h
  rw [Merge.Stream.context, Merge.Stream.context] at hcontext
  rw [joinAll, joinAll, Raising.value_bind, Raising.value_bind, Raising.value_pure,
    Raising.value_pure, hcontext]
  split
  · exact ⟨1, rearranged_leaf hq .absent⟩
  · exact ⟨n, h⟩

theorem joinAny_rearranged (hq : p.Equivalent q)
    (hr : Matched (fun s t => ∃ n, Rearranged n s t) ss ts) :
    ∃ n, Rearranged n (joinAny p ss).value (joinAny q ts).value := by
  obtain ⟨n, h⟩ := Merge.Stream.disjunction_ofStreams_rearranged hq hr
  have hcontext := Merge.Stream.context_of_rearranged h
  rw [Merge.Stream.context, Merge.Stream.context] at hcontext
  rw [joinAny, joinAny, Raising.value_bind, Raising.value_bind, Raising.value_pure,
    Raising.value_pure, hcontext]
  split
  · exact ⟨1, rearranged_leaf hq .absent⟩
  · exact ⟨1, rearranged_leaf hq .delayed⟩
  · exact ⟨n, h⟩

theorem matched_resolveAll {pool : Option WorkerPool} {ss' ts' : List Stream}
    (h : Matched Akin ss ts) (hs : (Stream.resolveAll pool ss).run.value = .ok ss')
    (ht : (Stream.resolveAll pool ts).run.value = .ok ts') :
    Matched (fun s t => ∃ n, Rearranged n s t) ss' ts' :=
  h.along (Merge.Stream.forall₂_of_resolveAll hs) (Merge.Stream.forall₂_of_resolveAll ht)
    fun _ _ _ _ _ hst hs ht => hst.await hs ht

/-- Joins of akin streams are akin if they are rearranged when made of streams that have been
looked up. -/
theorem akin_join {join : Query → List Stream → Raising Stream}
    (hjoin : ∀ {ss ts}, Matched (fun s t => ∃ n, Rearranged n s t) ss ts →
      ∃ n, Rearranged n (join p ss).value (join q ts).value) (h : Matched Akin ss ts)
    (hs : (do let ss ← Stream.resolveAll (some (pool x)) ss
              liftM (join p ss) : Making Stream).run.value = .ok s)
    (ht : (do let ts ← Stream.resolveAll (some (pool x)) ts
              liftM (join q ts) : Making Stream).run.value = .ok t) : Akin s t := by
  obtain ⟨ss', hss, hs⟩ := exists_of_bind hs
  obtain ⟨ts', hts, ht⟩ := exists_of_bind ht
  obtain rfl : (join p ss').value = s := Except.ok.inj hs
  obtain rfl : (join q ts').value = t := Except.ok.inj ht
  obtain ⟨n, hn⟩ := hjoin (matched_resolveAll h hss hts)
  exact .rearranged hn

theorem akin_conjunction (hq : p.Equivalent q) (h : Matched Akin ss ts)
    (hs : (conjunction x p ss).run.value = .ok s) (ht : (conjunction x q ts).run.value = .ok t) :
    Akin s t := by
  rw [conjunction_eq] at hs ht
  exact akin_join (joinAll_rearranged hq) h hs ht

theorem akin_disjunction (hq : p.Equivalent q) (h : Matched Akin ss ts)
    (hs : (disjunction x p ss).run.value = .ok s) (ht : (disjunction x q ts).run.value = .ok t) :
    Akin s t := by
  rw [disjunction_eq] at hs ht
  exact akin_join (joinAny_rearranged hq) h hs ht

/-! ### Queries -/

/-- The streams of siblings are those of each of them, less what takes no part. -/
theorem exists_of_streamsOf {place : Place} {position : Nat} {cs : List Query}
    (h : (streamsOf x place position cs).run.value = .ok ss) :
    ∃ all, List.Forall₂ (Makes x) cs all ∧ ss = all.filter fun s => s.context ≠ .skipped := by
  induction cs generalizing position ss with
  | nil =>
    obtain rfl := Except.ok.inj h
    exact ⟨[], .nil, rfl⟩
  | cons c cs ih =>
    rw [streamsOf] at h
    obtain ⟨s, hs, h⟩ := exists_of_bind h
    obtain ⟨rest, hrest, h⟩ := exists_of_bind h
    obtain ⟨all, hall, rfl⟩ := ih hrest
    obtain rfl := Except.ok.inj h
    refine ⟨s :: all, .cons ⟨_, hs⟩ hall, ?_⟩
    rw [List.filter_cons]
    by_cases hskip : s.context = .skipped <;> simp [hskip]

structure MakesAkin (x : LookupContext) (p q : Query) : Prop where
  reorders : Reorders p q
  akin : ∀ {s t}, Makes x p s → Makes x q t → Akin s t

theorem matched_streamsOf {place place' : Place} {position position' : Nat} {cs ds : List Query}
    (h : Matched (MakesAkin x) cs ds) (hs : (streamsOf x place position cs).run.value = .ok ss)
    (ht : (streamsOf x place' position' ds).run.value = .ok ts) : Matched Akin ss ts := by
  obtain ⟨ss, hss, rfl⟩ := exists_of_streamsOf hs
  obtain ⟨ts, hts, rfl⟩ := exists_of_streamsOf ht
  refine (h.along hss hts fun _ _ _ _ _ hcd => hcd.akin).filter fun s t hst => ?_
  rw [hst.context]

theorem makesAkin_leaf (hx : IsUniform x) (hq : q.children = []) : MakesAkin x q q := by
  refine ⟨.leaf hq, ?_⟩
  rintro s t ⟨place, hs⟩ ⟨place', ht⟩
  cases q with
  | equality field literal =>
    obtain rfl := Except.ok.inj hs
    obtain rfl := Except.ok.inj ht
    obtain ⟨l, hl⟩ := exists_leaf_equality x place (.equality field literal) field literal
    exact akin_of_eq hl (equality_eq hx ..)
  | and cs =>
    obtain rfl : cs = [] := hq
    exact akin_conjunction (x := x) (.refl _) .nil hs ht
  | or cs =>
    obtain rfl : cs = [] := hq
    exact akin_disjunction (x := x) (.refl _) .nil hs ht
  | marked m cs =>
    obtain rfl : cs = [] := hq
    exact akin_marked hx place place' .nil hs ht
  | not c => cases hq
  | assignment name value =>
    rw [streamOf] at hs ht
    split at hs
    · next hname =>
      rw [if_pos hname] at ht
      rw [eq_of_hinted hs, eq_of_hinted ht]
      exact .same _
    · next hname =>
      rw [if_neg hname] at ht
      obtain rfl := Except.ok.inj hs
      obtain rfl := Except.ok.inj ht
      exact .same _
  | _ =>
    obtain rfl := Except.ok.inj hs
    obtain rfl := Except.ok.inj ht
    exact .same _

theorem makesAkin (hx : IsUniform x) (h : Reorders p q) : MakesAkin x p q := by
  refine h.induct (P := MakesAkin x) ?leaf ?and ?or ?marked ?not
  case leaf => exact fun q hq => makesAkin_leaf hx hq
  case and =>
    intro cs ds hcd
    have hreorders := Reorders.of_matched_and (hcd.mono fun _ _ h => h.reorders)
    refine ⟨hreorders, ?_⟩
    rintro s t ⟨place, hs⟩ ⟨place', ht⟩
    obtain ⟨ss, hss, hs⟩ := exists_of_bind hs
    obtain ⟨ts, hts, ht⟩ := exists_of_bind ht
    exact akin_conjunction hreorders.equivalent (matched_streamsOf hcd hss hts) hs ht
  case or =>
    intro cs ds hcd
    have hreorders := Reorders.of_matched_or (hcd.mono fun _ _ h => h.reorders)
    refine ⟨hreorders, ?_⟩
    rintro s t ⟨place, hs⟩ ⟨place', ht⟩
    obtain ⟨ss, hss, hs⟩ := exists_of_bind hs
    obtain ⟨ts, hts, ht⟩ := exists_of_bind ht
    exact akin_disjunction hreorders.equivalent (matched_streamsOf hcd hss hts) hs ht
  case marked =>
    intro m cs ds hcd
    have hreorders := hcd.imp fun _ _ h => h.reorders
    refine ⟨.marked hreorders, ?_⟩
    rintro s t ⟨place, hs⟩ ⟨place', ht⟩
    exact akin_marked hx place place' hreorders hs ht
  case not =>
    intro c d hcd
    have hreorders : Reorders (.not c) (.not d) := .not hcd.reorders
    refine ⟨hreorders, ?_⟩
    rintro s t ⟨place, hs⟩ ⟨place', ht⟩
    obtain rfl := Except.ok.inj hs
    obtain rfl := Except.ok.inj ht
    exact .rearranged (rearranged_leaf hreorders.equivalent .delayed)

/-- The root streams of reordered queries are rearranged. -/
theorem rootOf_rearranged (hx : IsUniform x) (h : Reorders p q)
    (hs : (rootOf x p).run.value = .ok s) (ht : (rootOf x q).run.value = .ok t) :
    ∃ n, Rearranged n s t := by
  obtain ⟨u, hu, hs⟩ := exists_of_bind hs
  obtain ⟨v, hv, ht⟩ := exists_of_bind ht
  exact ((makesAkin hx h).akin ⟨_, hu⟩ ⟨_, hv⟩).await hs ht

end Lookup

end ShardedSearch
