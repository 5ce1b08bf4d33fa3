import Mathlib.Data.List.Perm.Subperm
import ShardedSearch.Merge.Disjunction
import ShardedSearch.Proofs.Merge.Emission

/-! # What disjunctions emit

A disjunction lists every shard that one of its streams lists, with the disjunction of
their evidence and of the deferred clauses. The candidate in view has been taken off the
streams; what is behind it is what they still list.
-/

namespace ShardedSearch.Merge

open Candidate

namespace Disjunction

variable {kind : Query → Prop} {σ : Type} {ops : StreamOps σ} {R : σ → List Candidate → Prop}
variable {d : Disjunction σ} {ss : List σ} {s : σ}
variable {css : List (List Candidate)} {cs : List Candidate} {deferred : List Query}
variable {id : ShardId} {g : ShardId → Evidence}

/-- The evidence of some listings for a shard, if any of them has it. -/
def evidenceOf (deferred : List Query) (css : List (List Candidate)) (id : ShardId) :
    Option Evidence :=
  Evidence.disj? (css.map (evidenceAt · id)) deferred

theorem evidenceOf_def :
    evidenceOf deferred css id =
      match css.filterMap (evidenceAt · id) with
      | [] => none
      | es => some (.disj es deferred) := by
  rw [evidenceOf, Evidence.disj?, List.filterMap_map]
  rfl

theorem evidenceOf_eq_none_iff :
    evidenceOf deferred css id = none ↔ css.filterMap (evidenceAt · id) = [] := by
  rw [evidenceOf_def]
  split <;> simp_all

theorem evidenceOf_eq_some {e : Evidence} (h : evidenceOf deferred css id = some e) :
    e = .disj (css.filterMap (evidenceAt · id)) deferred ∧
      ∃ cs ∈ css, (evidenceAt cs id).isSome = true := by
  rw [evidenceOf_def] at h
  split at h
  · simp at h
  · next es hne =>
    refine ⟨(Option.some.inj h).symm, ?_⟩
    obtain ⟨e', he⟩ := List.exists_mem_of_ne_nil _ hne
    obtain ⟨cs, hcs, hat⟩ := List.mem_filterMap.mp he
    exact ⟨cs, hcs, by rw [hat]; rfl⟩

theorem getD_evidenceOf :
    (evidenceOf deferred css id).getD (.disj [] deferred) =
      .disj (css.filterMap (evidenceAt · id)) deferred := by
  rw [evidenceOf_def]
  split
  · next h => rw [h]; rfl
  · rfl

theorem filterMap_evidenceAt_map (f : List Candidate → List Candidate) :
    (css.map f).filterMap (evidenceAt · id) = css.filterMap fun cs => evidenceAt (f cs) id := by
  rw [List.filterMap_map]
  rfl

theorem evidenceOf_map_onward (j : ShardId) :
    evidenceOf deferred (css.map (onward j)) id =
      if id < j then none else evidenceOf deferred css id := by
  rw [evidenceOf_def, evidenceOf_def, filterMap_evidenceAt_map]
  simp only [evidenceAt_onward]
  by_cases h : id < j <;> simp [h]

theorem evidenceOf_map_beyond (j : ShardId) :
    evidenceOf deferred (css.map (beyond j)) id =
      if j < id then evidenceOf deferred css id else none := by
  rw [evidenceOf_def, evidenceOf_def, filterMap_evidenceAt_map]
  simp only [evidenceAt_beyond]
  by_cases h : j < id <;> simp [h]

theorem ofKind_filterMap (h : ∀ cs ∈ css, ListingOf kind cs) :
    ∀ e ∈ css.filterMap (evidenceAt · id), kind e.query := by
  intro e he
  obtain ⟨cs, hcs, hat⟩ := List.mem_filterMap.mp he
  exact (h cs hcs).ofKind_of_evidenceAt hat

theorem exists_listingOf_evidenceOf [Evidence.Keeps kind] (h : ∀ cs ∈ css, ListingOf kind cs)
    (hd : ∀ q ∈ deferred, kind q) :
    ∃ cs, ListingOf kind cs ∧ ∀ id, evidenceAt cs id = evidenceOf deferred css id := by
  apply exists_listingOf (css.flatten.map (·.shard)) _
  intro id e he
  obtain ⟨rfl, cs, hcs, hsome⟩ := evidenceOf_eq_some he
  obtain ⟨c, hc, rfl⟩ := isSome_evidenceAt_iff.mp hsome
  exact ⟨List.mem_map_of_mem (List.mem_flatten.mpr ⟨cs, hcs, hc⟩), (h cs hcs).numbered c hc,
    Evidence.Keeps.disj (ofKind_filterMap h) hd⟩

/-! ### Taking candidates off streams -/

theorem takeFrom_of_emits (ho : Emitting kind ops R) {n : Nat} (hs : R s cs)
    (hid : Shard.isDay id = false) (hmin : ∀ c ∈ cs, ¬ c.shard < id) (hn : cs ≠ [] → 0 < n) :
    ∃ s', takeFrom ops id n s = pure ((evidenceAt cs id).toList, s') ∧
      R s' (beyond id cs) := by
  cases cs with
  | nil =>
    refine ⟨s, ?_, hs⟩
    cases n with
    | zero => rfl
    | succ n => rw [takeFrom, ho.head hs]; rfl
  | cons c cs =>
    have ha := (ho.listing hs).ascending
    obtain ⟨n, rfl⟩ := Nat.exists_eq_succ_of_ne_zero (Nat.pos_iff_ne_zero.mp (hn (by simp)))
    rw [takeFrom, ho.head hs, List.head?_cons]
    simp only [Shard.covers_of_isDay_eq_false hid, Bool.false_eq_true, or_false]
    by_cases hc : c.shard = id
    · subst hc
      obtain ⟨s', hs', he⟩ := ho.advance hs
      rw [List.tail_cons] at he
      refine ⟨s', ?_, by rwa [beyond_cons_self ha]⟩
      simp only [if_true, hs', pure_bind, evidenceAt_cons, Option.toList_some]
      cases n with
      | zero => rfl
      | succ n =>
        rw [takeFrom, ho.head he]
        cases cs with
        | nil => rfl
        | cons b cs =>
          have hb : c.shard < b.shard := (List.pairwise_cons.mp ha).1 b List.mem_cons_self
          simp only [List.head?_cons, Shard.covers_of_isDay_eq_false hid,
            (KeyOrder.ne_of_lt hb).symm, Bool.false_eq_true, or_self, if_false, pure_bind]
    · have hlt : id < c.shard := KeyOrder.lt_of_not_lt (hmin c List.mem_cons_self) hc
      refine ⟨s, ?_, by rwa [beyond_of_lt ha hlt]⟩
      have hnone : evidenceAt cs id = none := evidenceAt_of_lt ha (KeyOrder.not_lt_of_lt hlt)
      simp [hc, evidenceAt_cons, hnone]

theorem toList_append_filterMap (f : List Candidate → Option Evidence) :
    (f cs).toList ++ css.filterMap f = (cs :: css).filterMap f := by
  rw [List.filterMap_cons]
  cases f cs <;> rfl

theorem takeAll_of_emits (ho : Emitting kind ops R) (hs : List.Forall₂ R ss css)
    (hid : Shard.isDay id = false) (hmin : ∀ cs ∈ css, ∀ c ∈ cs, ¬ c.shard < id) :
    ∃ ss', takeAll ops id ss = pure (css.filterMap (evidenceAt · id), ss') ∧
      List.Forall₂ R ss' (css.map (beyond id)) := by
  induction hs with
  | nil => exact ⟨[], rfl, .nil⟩
  | cons hs hss ih =>
    obtain ⟨s', hs', he⟩ := takeFrom_of_emits ho (n := 1) hs hid
      (hmin _ List.mem_cons_self) (fun _ => Nat.one_pos)
    obtain ⟨ss', hss', hes⟩ := ih fun cs hcs => hmin cs (List.mem_cons_of_mem _ hcs)
    refine ⟨s' :: ss', ?_, .cons he hes⟩
    rw [takeAll, hid, if_neg Bool.false_ne_true, hs', pure_bind]
    simp only [hss', pure_bind, toList_append_filterMap (evidenceAt · id)]

theorem collect_of_emits (ho : Emitting kind ops R) (hs : List.Forall₂ R ss css)
    (hid : Shard.isDay id = false) :
    ∃ ss', collect ops id ss = pure (css.filterMap (evidenceAt · id), ss') ∧
      List.Forall₂ R ss' (css.map fun cs => beyond id (onward id cs)) := by
  induction hs with
  | nil => exact ⟨[], rfl, .nil⟩
  | @cons s cs ss css hs hss ih =>
    obtain ⟨s₁, hs₁, he₁⟩ := ho.seek id hs
    obtain ⟨s₂, hs₂, he₂⟩ := takeFrom_of_emits ho (n := ops.remaining s₁) he₁ hid
      (fun c hc => (mem_onward.mp hc).2)
      (fun hne => Nat.lt_of_lt_of_le (List.length_pos_iff.mpr hne) (ho.remaining he₁))
    obtain ⟨ss', hss', hes⟩ := ih
    have hday : (ops.head s₂).filter (fun c => Shard.covers c.shard id) = none := by
      rw [ho.head he₂, Option.filter_eq_none_iff]
      intro c hc
      have hm := List.mem_of_head? hc
      simp [Shard.covers_of_isDay_eq_false ((ho.listing he₂).numbered c hm)]
    have hat : evidenceAt (onward id cs) id = evidenceAt cs id := by
      rw [evidenceAt_onward, if_neg (String.lt_irrefl id)]
    refine ⟨s₂ :: ss', ?_, .cons he₂ hes⟩
    rw [collect, hs₁, pure_bind, hs₂, pure_bind]
    simp only [hday, hss', pure_bind, Option.toList_none, List.map_nil, List.append_nil, hat,
      toList_append_filterMap (evidenceAt · id)]

/-! ### The invariant -/

/-- The candidate in view stands in front of what the streams still list. -/
def Emits (kind : Query → Prop) (R : σ → List Candidate → Prop) (d : Disjunction σ)
    (cs : List Candidate) : Prop :=
  ListingOf kind cs ∧ (∀ q ∈ d.deferred, kind q) ∧
    (∀ c ∈ d.head, ∃ es : List Evidence, (∀ e ∈ es, kind e.query) ∧
      c.evidence = .disj es d.deferred) ∧
    ∃ css rest, List.Forall₂ R d.children css ∧ cs = d.head.toList ++ rest ∧
      (d.head = none → rest = []) ∧ ∀ id, evidenceAt rest id = evidenceOf d.deferred css id

theorem lowest?_of_emits (ho : Emitting kind ops R) (hs : List.Forall₂ R ss css) :
    lowest? ops ss = (css.filterMap fun cs => cs.head?.map (·.shard)).min? := by
  rw [lowest?]
  congr 1
  induction hs with
  | nil => rfl
  | cons hs _ ih => rw [List.filterMap_cons, List.filterMap_cons, ho.head hs, ih]

theorem not_lt_of_lowest (h : ∀ cs ∈ css, ListingOf kind cs)
    (hl : (css.filterMap fun cs => cs.head?.map (·.shard)).min? = some id) :
    ∀ cs ∈ css, ∀ c ∈ cs, ¬ c.shard < id := by
  intro cs hcs c hc hlt
  cases cs with
  | nil => simp at hc
  | cons b cs =>
    have hb : ¬ b.shard < id :=
      (Shard.least_of_min? hl).2 b.shard (List.mem_filterMap.mpr ⟨_, hcs, rfl⟩)
    rcases List.mem_cons.mp hc with rfl | hc
    · exact hb hlt
    · exact hb (KeyOrder.trans ((List.pairwise_cons.mp (h _ hcs).ascending).1 c hc) hlt)

theorem exists_head_of_lowest
    (hl : (css.filterMap fun cs => cs.head?.map (·.shard)).min? = some id) :
    ∃ cs ∈ css, ∃ c, cs.head? = some c ∧ c.shard = id := by
  obtain ⟨cs, hcs, hm⟩ := List.mem_filterMap.mp (Shard.least_of_min? hl).1
  obtain ⟨c, hc, he⟩ := Option.map_eq_some_iff.mp hm
  exact ⟨cs, hcs, c, hc, he⟩

theorem eq_nil_of_lowest
    (hl : (css.filterMap fun cs => cs.head?.map (·.shard)).min? = none) :
    ∀ cs ∈ css, cs = [] := by
  intro cs hcs
  have h := List.filterMap_eq_nil_iff.mp (List.min?_eq_none_iff.mp hl) cs hcs
  simpa using h

theorem evidenceOf_of_not_lt (hmin : ∀ cs ∈ css, ∀ c ∈ cs, ¬ c.shard < id) {j : ShardId}
    (hj : j < id) : evidenceOf deferred css j = none := by
  rw [evidenceOf_eq_none_iff, List.filterMap_eq_nil_iff]
  intro cs hcs
  rw [evidenceAt_eq_none_iff]
  exact fun c hc he => hmin cs hcs c hc (he ▸ hj)

theorem evidenceAt_at_lowest {c : Candidate} {rest : List Candidate} {j : ShardId}
    (hmin : ∀ cs ∈ css, ∀ b ∈ cs, ¬ b.shard < c.shard) (hmem : ∃ cs ∈ css, c ∈ cs)
    (hat : ∀ id, evidenceAt rest id = evidenceOf deferred (css.map (beyond c.shard)) id) :
    evidenceAt (⟨c.shard, .disj (css.filterMap (evidenceAt · c.shard)) deferred⟩ :: rest) j =
      evidenceOf deferred css j := by
  rw [evidenceAt_cons, hat, evidenceOf_map_beyond]
  by_cases hj : c.shard = j
  · obtain rfl := hj
    have hne : css.filterMap (evidenceAt · c.shard) ≠ [] := by
      obtain ⟨cs, hcs, hc⟩ := hmem
      intro he
      have hn := List.filterMap_eq_nil_iff.mp he cs hcs
      rw [evidenceAt_eq_none_iff] at hn
      exact hn c hc rfl
    rw [if_pos rfl, evidenceOf_def]
    split
    · next he => exact absurd he hne
    · rfl
  · rw [if_neg hj]
    by_cases hlt : c.shard < j
    · rw [if_pos hlt]
    · rw [if_neg hlt, evidenceOf_of_not_lt hmin (KeyOrder.lt_of_not_lt hlt hj)]

theorem refill_of_emits [Evidence.Keeps kind] (ho : Emitting kind ops R)
    (hs : List.Forall₂ R d.children css) (hd : ∀ q ∈ d.deferred, kind q) :
    ∃ d' cs, d.refill ops = pure d' ∧ d'.Emits kind R cs ∧
      (∀ id, evidenceAt cs id = evidenceOf d.deferred css id) ∧
      d'.query = d.query ∧ d'.deferred = d.deferred ∧ d'.context = d.context := by
  have hcss := ho.isListing hs
  rw [refill, lowest?_of_emits ho hs]
  cases hl : (css.filterMap fun cs => cs.head?.map (·.shard)).min? with
  | none =>
    have hnil := eq_nil_of_lowest hl
    have hnone : ∀ id, evidenceOf d.deferred css id = none := by
      intro id
      rw [evidenceOf_eq_none_iff, List.filterMap_eq_nil_iff]
      exact fun cs hcs => by rw [hnil cs hcs, evidenceAt_nil]
    refine ⟨{ d with head := none }, [], rfl, ⟨.nil, hd, by simp, css, [], hs, rfl,
      fun _ => rfl, fun id => (hnone id).symm⟩, fun id => (hnone id).symm, rfl, rfl, rfl⟩
  | some id =>
    obtain ⟨cs₀, hcs₀, c₀, hc₀, rfl⟩ := exists_head_of_lowest hl
    have hday := (hcss cs₀ hcs₀).numbered c₀ (List.mem_of_head? hc₀)
    have hmin := not_lt_of_lowest hcss hl
    obtain ⟨children, htake, hchildren⟩ := takeAll_of_emits ho hs hday hmin
    have hbeyond : ∀ cs ∈ css.map (beyond c₀.shard), ListingOf kind cs := by
      rintro _ hm
      obtain ⟨cs, hcs, rfl⟩ := List.mem_map.mp hm
      exact (hcss cs hcs).beyond
    obtain ⟨rest, hrest, hat⟩ := exists_listingOf_evidenceOf hbeyond hd
    let es := css.filterMap (evidenceAt · c₀.shard)
    let c : Candidate := ⟨c₀.shard, .disj es d.deferred⟩
    have hkind : ∀ e ∈ es, kind e.query := ofKind_filterMap hcss
    have hlt : ∀ b ∈ rest, c₀.shard < b.shard := by
      intro b hb
      have he := (evidenceAt_eq_some_iff hrest.ascending).mpr hb
      rw [hat, evidenceOf_map_beyond] at he
      exact Classical.byContradiction fun hn => by simp [hn] at he
    have hcs : ListingOf kind (c :: rest) :=
      hrest.cons hday (Evidence.Keeps.disj hkind hd) hlt
    refine ⟨{ d with children, head := some c }, c :: rest, ?_,
      ⟨hcs, hd, ?_, _, rest, hchildren, rfl, by simp, hat⟩, fun _ => evidenceAt_at_lowest hmin
        ⟨cs₀, hcs₀, List.mem_of_head? hc₀⟩ hat, rfl, rfl, rfl⟩
    · simp only [htake, pure_bind]
      rfl
    · intro b hb
      obtain rfl := Option.some.inj hb
      exact ⟨es, hkind, rfl⟩

theorem refill_emits [Evidence.Keeps kind] (ho : Emitting kind ops R)
    (hs : List.Forall₂ R d.children css) (hd : ∀ q ∈ d.deferred, kind q) (hcs : Ascending cs)
    (hat : ∀ id, evidenceAt cs id = evidenceOf d.deferred css id) :
    ∃ d', d.refill ops = pure d' ∧ d'.Emits kind R cs := by
  obtain ⟨d', cs', hr, he, hat', -⟩ := refill_of_emits ho hs hd
  obtain rfl := ext_evidenceAt he.1.ascending hcs fun id => (hat' id).trans (hat id).symm
  exact ⟨d', hr, he⟩

theorem head_of_emits (h : d.Emits kind R cs) : d.head = cs.head? := by
  obtain ⟨-, -, -, css, rest, -, rfl, hn, -⟩ := h
  cases hh : d.head with
  | none => rw [hn hh]; rfl
  | some c => rfl

theorem advance_of_emits [Evidence.Keeps kind] (ho : Emitting kind ops R) (h : d.Emits kind R cs) :
    ∃ d', d.advance ops = pure (cs.head?, d') ∧ d'.Emits kind R cs.tail := by
  have h' := h
  have hhead := head_of_emits h
  rw [advance, hhead]
  obtain ⟨hcs, hd, -, css, rest, hs, hcut, hn, hat⟩ := h'
  cases cs with
  | nil => exact ⟨d, rfl, h⟩
  | cons c cs =>
    rw [hhead, List.head?_cons, Option.toList_some] at hcut
    obtain ⟨-, rfl⟩ := List.cons.inj hcut
    obtain ⟨d', hr, he⟩ := refill_emits ho hs hd hcs.tail.ascending hat
    refine ⟨d', ?_, he⟩
    rw [List.head?_cons, hr]
    rfl

theorem seek_of_emits [Evidence.Keeps kind] (ho : Emitting kind ops R) (id : ShardId)
    (h : d.Emits kind R cs) :
    ∃ d', d.seek ops id = pure d' ∧ d'.Emits kind R (onward id cs) := by
  have h' := h
  have hhead := head_of_emits h
  obtain ⟨hcs, hd, -, css, rest, hs, hcut, -, hat⟩ := h'
  rw [seek]
  cases cs with
  | nil => exact ⟨d, by rw [hhead]; rfl, h⟩
  | cons c cs =>
    have hany : (d.head.any fun c => Shard.precedes c.shard id) = decide (c.shard < id) := by
      rw [hhead, List.head?_cons, Option.any_some,
        Shard.precedes_of_isDay_eq_false (hcs.numbered c List.mem_cons_self)]
    rw [hany]
    by_cases hc : c.shard < id
    · rw [hhead, List.head?_cons, Option.toList_some] at hcut
      obtain ⟨-, rfl⟩ := List.cons.inj hcut
      obtain ⟨children, hm, hchildren⟩ := ho.mapM_seek id hs
      have hat' : ∀ j, evidenceAt (onward id cs) j =
          evidenceOf d.deferred (css.map (onward id)) j := by
        intro j
        rw [evidenceOf_map_onward, evidenceAt_onward, hat]
      obtain ⟨d', hr, he⟩ := refill_emits (d := { d with children }) ho hchildren hd
        (ascending_onward hcs.tail.ascending) hat'
      rw [if_pos (decide_eq_true hc), onward_cons_of_lt hc]
      exact ⟨d', by rw [hm, pure_bind, hr], he⟩
    · rw [if_neg (by simpa using hc), onward_of_not_lt hcs.ascending hc]
      exact ⟨d, rfl, h⟩

theorem length_le_of_evidenceOf (hcs : Ascending cs)
    (hat : ∀ id, evidenceAt cs id = evidenceOf deferred css id) :
    cs.length ≤ css.flatten.length := by
  have hsub : ∀ id ∈ cs.map (·.shard), id ∈ css.flatten.map (·.shard) := by
    intro id hid
    obtain ⟨c, hc, rfl⟩ := List.mem_map.mp hid
    have he := (evidenceAt_eq_some_iff hcs).mpr hc
    rw [hat] at he
    obtain ⟨-, ds, hds, hsome⟩ := evidenceOf_eq_some he
    obtain ⟨b, hb, he⟩ := isSome_evidenceAt_iff.mp hsome
    exact List.mem_map.mpr ⟨b, List.mem_flatten.mpr ⟨ds, hds, hb⟩, he⟩
  have hnodup : (cs.map (·.shard)).Nodup :=
    List.pairwise_map.mpr (hcs.imp fun hlt => KeyOrder.ne_of_lt hlt)
  have := (List.Nodup.subperm hnodup hsub).length_le
  rwa [List.length_map, List.length_map] at this

theorem remaining_of_emits (ho : Emitting kind ops R) (h : d.Emits kind R cs) :
    cs.length ≤ d.remaining ops := by
  obtain ⟨hcs, -, -, css, rest, hs, rfl, -, hat⟩ := h
  have hrest := length_le_of_evidenceOf (List.pairwise_append.mp hcs.ascending).2.1 hat
  have := ho.length_flatten_le hs
  rw [remaining, List.length_append]
  omega

/-! ### Answers -/

/-- A mixed disjunction has its deferred clauses for every shard. -/
def Answers (kind : Query → Prop) (R : σ → List Candidate → Prop) (d : Disjunction σ)
    (g : ShardId → Evidence) : Prop :=
  d.context = .mixed ∧ d.deferred ≠ [] ∧
    ∃ cs, d.Emits kind R cs ∧ ∀ id, g id = (evidenceAt cs id).getD (.disj [] d.deferred)

theorem combined_of_deferred (hn : d.deferred ≠ []) (es : List Evidence) :
    d.combined id es = some ⟨id, .disj es d.deferred⟩ := by
  have h : d.deferred.isEmpty = false := by simpa using hn
  rw [combined, h, Bool.and_false]
  rfl

theorem answerRest_of_emits [Evidence.Keeps kind] (ho : Emitting kind ops R)
    (hs : List.Forall₂ R d.children css) (hd : ∀ q ∈ d.deferred, kind q)
    (hctx : d.context = .mixed) (hn : d.deferred ≠ []) (hid : Shard.isDay id = false)
    (es : List Evidence) :
    ∃ d' g', answer.answerRest ops id d es =
        pure (some ⟨id, .disj (es ++ css.filterMap (evidenceAt · id)) d.deferred⟩, d') ∧
      d'.Answers kind R g' ∧
      ∀ j, id < j → g' j = (evidenceOf d.deferred css j).getD (.disj [] d.deferred) := by
  obtain ⟨children, hc, hchildren⟩ := collect_of_emits ho hs hid
  obtain ⟨d', cs', hr, he, hat, -, hdef, hctx'⟩ :=
    refill_of_emits (d := { d with children }) ho hchildren hd
  refine ⟨d', _, ?_, ⟨hctx'.trans hctx, hdef ▸ hn, cs', he, fun _ => rfl⟩, fun j hj => ?_⟩
  · rw [answer.answerRest, hc, pure_bind]
    simp only [hr, pure_bind]
    rw [combined_of_deferred (hdef ▸ hn), hdef]
  · have hmap : (css.map fun cs => beyond id (onward id cs)) =
        (css.map (onward id)).map (beyond id) := by
      rw [List.map_map]
      rfl
    rw [hdef, hat, hmap, evidenceOf_map_beyond, if_pos hj, evidenceOf_map_onward,
      if_neg (KeyOrder.not_lt_of_lt hj)]

theorem ofKind_of_answers [Evidence.Keeps kind] (h : d.Answers kind R g) (id : ShardId) :
    kind (g id).query := by
  obtain ⟨-, -, cs, he, hg⟩ := h
  rw [hg]
  cases hat : evidenceAt cs id with
  | none => exact Evidence.Keeps.disj (by simp) he.2.1
  | some e => exact he.1.ofKind_of_evidenceAt hat

theorem answerMerged_of_lt (hn : d.deferred ≠ []) (h : d.Answers kind R g) {c : Candidate}
    (hh : d.head = some c) (hid : Shard.isDay id = false) (hlt : id < c.shard) :
    answer.answerMerged ops id d = pure (some ⟨id, g id⟩, d) := by
  obtain ⟨-, -, cs, he, hg⟩ := h
  have hhead := head_of_emits he
  cases cs with
  | nil => simp [hh] at hhead
  | cons b cs =>
    obtain rfl := Option.some.inj (hh.symm.trans hhead)
    have hne : c.shard ≠ id := (KeyOrder.ne_of_lt hlt).symm
    have hnone : evidenceAt (c :: cs) id = none := by
      rw [evidenceAt_cons, if_neg hne, evidenceAt_of_lt he.1.ascending (KeyOrder.not_lt_of_lt hlt)]
    have hday : Shard.isDay c.shard = false := he.1.numbered c List.mem_cons_self
    rw [answer.answerMerged, hh, hg, hnone]
    simp only [Shard.covers_of_isDay_eq_false hid, Shard.covers_of_isDay_eq_false hday, hne,
      Bool.false_eq_true, or_false, if_false, hlt, if_true, combined_of_deferred hn,
      Option.getD_none]

theorem answerMerged_of_gt [Evidence.Keeps kind] (ho : Emitting kind ops R) (h : d.Answers kind R g)
    (hid : Shard.isDay id = false) (hlt : ∀ c ∈ d.head, c.shard < id) :
    ∃ d' g', answer.answerMerged ops id d = pure (some ⟨id, g id⟩, d') ∧ d'.Answers kind R g' ∧
      ∀ j, id < j → g' j = g j := by
  obtain ⟨hctx, hn, cs, ⟨hcs, hd, -, css, rest, hs, rfl, -, hat⟩, hg⟩ := h
  have hrest : ∀ j, ¬ j < id →
      evidenceAt (d.head.toList ++ rest) j = evidenceOf d.deferred css j := by
    intro j hj
    rw [← hat]
    cases hh : d.head with
    | none => rfl
    | some c =>
      have hne : c.shard ≠ j := fun he => hj (he ▸ hlt c hh)
      exact evidenceAt_cons.trans (if_neg hne)
  obtain ⟨d', g', hr, ha, hg'⟩ := answerRest_of_emits ho hs hd hctx hn hid []
  refine ⟨d', g', ?_, ha, fun j hj => ?_⟩
  · have hgid : g id = .disj (css.filterMap (evidenceAt · id)) d.deferred := by
      rw [hg, hrest id (String.lt_irrefl id), getD_evidenceOf]
    rw [List.nil_append] at hr
    rw [answer.answerMerged, hgid, ← hr]
    cases hh : d.head with
    | none => rfl
    | some c =>
      have hc : c.shard < id := hlt c hh
      have hday : Shard.isDay c.shard = false := hcs.numbered c (by simp [hh])
      simp only [Shard.covers_of_isDay_eq_false hid, Shard.covers_of_isDay_eq_false hday,
        KeyOrder.ne_of_lt hc, Bool.false_eq_true, or_self, if_false, KeyOrder.not_lt_of_lt hc]
  · rw [hg' j hj, hg, hrest j (KeyOrder.not_lt_of_lt hj)]

/-- The candidate in view already has the deferred clauses; joined once more to a flat query, they
change nothing. -/
theorem answerMerged_of_eq [Evidence.Keeps kind] (hk : ∀ q, kind q → q.IsFlat)
    (ho : Emitting kind ops R) (h : d.Answers kind R g) {c : Candidate}
    (hh : d.head = some c) (hid : Shard.isDay c.shard = false) :
    ∃ d' g', answer.answerMerged ops c.shard d = pure (some ⟨c.shard, g c.shard⟩, d') ∧
      d'.Answers kind R g' ∧ ∀ j, c.shard < j → g' j = g j := by
  obtain ⟨hctx, hn, cs, ⟨hcs, hd, hview, css, rest, hs, rfl, -, hat⟩, hg⟩ := h
  rw [hh, Option.toList_some, List.singleton_append] at hcs hg
  obtain ⟨es, hes, hev⟩ := hview c hh
  have hgid : g c.shard = c.evidence := by
    rw [hg, evidenceAt_cons, if_pos rfl]
    rfl
  have hnil : css.filterMap (evidenceAt · c.shard) = [] := by
    have hnone : evidenceOf d.deferred css c.shard = none := by
      rw [← hat]
      exact evidenceAt_of_lt hcs.ascending (String.lt_irrefl _)
    exact evidenceOf_eq_none_iff.mp hnone
  obtain ⟨d', g', hr, ha, hg'⟩ := answerRest_of_emits ho hs hd hctx hn hid [c.evidence]
  refine ⟨d', g', ?_, ha, fun j hj => ?_⟩
  · have hdisj := Evidence.disj_disj (fun e he => hk _ (hes e he)) (fun q hq => hk q (hd q hq)) hn
    rw [hnil, List.append_nil, hev, hdisj, ← hev, ← hgid] at hr
    rw [answer.answerMerged, hh, ← hr, hgid]
    simp only [true_or, if_true]
  · rw [hg' j hj, hg, evidenceAt_cons, if_neg (KeyOrder.ne_of_lt hj), hat]

theorem answer_of_answers [Evidence.Keeps kind] (hk : ∀ q, kind q → q.IsFlat)
    (ho : Emitting kind ops R) (id : ShardId) (h : d.Answers kind R g)
    (hid : Shard.isDay id = false) :
    ∃ d' g', d.answer ops id = pure (some ⟨id, g id⟩, d') ∧ d'.Answers kind R g' ∧
      ∀ j, id < j → g' j = g j := by
  have ha : d.answer ops id = answer.answerMerged ops id d := by rw [answer, h.1]
  rw [ha]
  cases hh : d.head with
  | none => exact answerMerged_of_gt ho h hid (by simp [hh])
  | some c =>
    by_cases hlt : id < c.shard
    · exact ⟨d, g, answerMerged_of_lt h.2.1 h hh hid hlt, h, fun _ _ => rfl⟩
    · by_cases heq : c.shard = id
      · obtain rfl := heq
        exact answerMerged_of_eq hk ho h hh hid
      · apply answerMerged_of_gt ho h hid
        intro b hb
        obtain rfl := Option.some.inj (hh.symm.trans hb)
        exact KeyOrder.lt_of_not_lt hlt fun h => heq h.symm

end Disjunction

end ShardedSearch.Merge
