import Mathlib.Algebra.Order.BigOperators.Group.List
import Mathlib.Algebra.Order.Group.Nat
import Mathlib.Data.List.Perm.Subperm
import ShardedSearch.Merge.Conjunction
import ShardedSearch.Proofs.Merge.Emission

/-! # What conjunctions emit

A conjunction lists every shard that all of its streams list, with the conjunction of
their evidence, the answers of the asked streams and the deferred clauses, unless that is
certainly empty. A round either takes a candidate off every stream or moves one ahead.
-/

namespace ShardedSearch.Merge

open Candidate

namespace Conjunction

variable {kind : Query → Prop} {σ : Type} {ops : StreamOps σ} {R : σ → List Candidate → Prop}
variable {A : σ → (ShardId → Evidence) → Prop} {j : Conjunction σ} {ss : List σ}
variable {css : List (List Candidate)} {gs hs : List (ShardId → Evidence)} {cs : List Candidate}
variable {deferred : List Query} {id target : ShardId}

/-- The evidence that listings and answers have for a shard together. -/
def evidenceOf (deferred : List Query) (css : List (List Candidate))
    (gs : List (ShardId → Evidence)) (id : ShardId) : Option Evidence :=
  Evidence.conj? (css.map (evidenceAt · id)) (gs.map (· id)) deferred

theorem evidenceOf_def :
    evidenceOf deferred css gs id =
      if ∀ cs ∈ css, (evidenceAt cs id).isSome = true then
        (some (Evidence.conj (css.filterMap (evidenceAt · id) ++ gs.map (· id))
          deferred)).filter (!·.isEmpty)
      else none := by
  simp only [evidenceOf, Evidence.conj?, List.forall_mem_map, List.filterMap_map]
  rfl

theorem evidenceOf_eq_some {e : Evidence} (h : evidenceOf deferred css gs id = some e) :
    (∀ cs ∈ css, (evidenceAt cs id).isSome = true) ∧
      e = .conj (css.filterMap (evidenceAt · id) ++ gs.map (· id)) deferred := by
  obtain ⟨hall, rfl, -⟩ := Evidence.conj?_eq_some h
  refine ⟨fun cs hcs => hall _ (List.mem_map_of_mem hcs), ?_⟩
  rw [List.filterMap_map]
  rfl

theorem evidenceOf_eq_none (hcs : cs ∈ css) (h : evidenceAt cs id = none) :
    evidenceOf deferred css gs id = none := by
  rw [evidenceOf_def, if_neg]
  intro hall
  simpa [h] using hall cs hcs

theorem evidenceOf_congr {f : List Candidate → List Candidate}
    (hf : ∀ cs ∈ css, evidenceAt (f cs) id = evidenceAt cs id)
    (hg : hs.map (· id) = gs.map (· id)) :
    evidenceOf deferred (css.map f) hs id = evidenceOf deferred css gs id := by
  have hall : (∀ cs ∈ css.map f, (evidenceAt cs id).isSome = true) ↔
      ∀ cs ∈ css, (evidenceAt cs id).isSome = true := by
    constructor
    · intro h cs hcs
      rw [← hf cs hcs]
      exact h _ (List.mem_map_of_mem hcs)
    · intro h ds hds
      obtain ⟨cs, hcs, rfl⟩ := List.mem_map.mp hds
      rw [hf cs hcs]
      exact h cs hcs
  have hes : (css.map f).filterMap (evidenceAt · id) = css.filterMap (evidenceAt · id) := by
    rw [List.filterMap_map]
    exact List.filterMap_congr hf
  simp only [evidenceOf_def, hall, hes, hg]

theorem ofKind_of_evidenceOf [Evidence.Keeps kind] (hcss : ∀ cs ∈ css, ListingOf kind cs)
    (hgs : ∀ g ∈ gs, ∀ id, kind (g id).query) (hd : ∀ q ∈ deferred, kind q) {e : Evidence}
    (he : evidenceOf deferred css gs id = some e) : kind e.query := by
  obtain ⟨-, rfl⟩ := evidenceOf_eq_some he
  refine Evidence.Keeps.conj (fun e he => ?_) hd
  rcases List.mem_append.mp he with he | he
  · obtain ⟨cs, hcs, hat⟩ := List.mem_filterMap.mp he
    exact (hcss cs hcs).ofKind_of_evidenceAt hat
  · obtain ⟨g, hg, rfl⟩ := List.mem_map.mp he
    exact hgs g hg _

theorem exists_listingOf_evidenceOf [Evidence.Keeps kind] (hne : css ≠ [])
    (hcss : ∀ cs ∈ css, ListingOf kind cs) (hgs : ∀ g ∈ gs, ∀ id, kind (g id).query)
    (hd : ∀ q ∈ deferred, kind q) :
    ∃ cs, ListingOf kind cs ∧ ∀ id, evidenceAt cs id = evidenceOf deferred css gs id := by
  apply exists_listingOf (css.flatten.map (·.shard)) _
  intro id e he
  obtain ⟨cs, hcs⟩ := List.exists_mem_of_ne_nil css hne
  obtain ⟨c, hc, rfl⟩ := isSome_evidenceAt_iff.mp ((evidenceOf_eq_some he).1 cs hcs)
  exact ⟨List.mem_map_of_mem (List.mem_flatten.mpr ⟨cs, hcs, hc⟩), (hcss cs hcs).numbered c hc,
    ofKind_of_evidenceOf hcss hgs hd he⟩

/-! ### One round -/

/-- The greatest shard in view, when every stream has one. -/
structure IsTarget (css : List (List Candidate)) (target : ShardId) : Prop where
  nonempty : ∀ cs ∈ css, cs ≠ []
  mem : ∃ c cs, c :: cs ∈ css ∧ c.shard = target
  greatest : ∀ cs ∈ css, ∀ c ∈ cs.head?, ¬ target < c.shard

theorem heads?_of_emits (ho : Emitting kind ops R) (hr : List.Forall₂ R ss css) :
    ([] ∈ css ∧ heads? ops ss = none) ∨
      ([] ∉ css ∧ heads? ops ss = some (css.filterMap fun cs => cs.head?.map (·.shard))) := by
  induction hr with
  | nil => exact .inr ⟨by simp, rfl⟩
  | @cons s cs ss css hs _ ih =>
    rw [heads?, ho.head hs]
    cases cs with
    | nil => exact .inl ⟨List.mem_cons_self, rfl⟩
    | cons c cs =>
      rcases ih with ⟨hmem, hnone⟩ | ⟨hmem, hsome⟩
      · exact .inl ⟨List.mem_cons_of_mem _ hmem, by rw [hnone]; rfl⟩
      · exact .inr ⟨by simp [hmem], by rw [hsome]; rfl⟩

theorem isTarget_of_emits (ho : Emitting kind ops R) (hr : List.Forall₂ R ss css) (hne : css ≠ []) :
    ([] ∈ css ∧ (heads? ops ss).bind List.max? = none) ∨
      ∃ target, IsTarget css target ∧ (heads? ops ss).bind List.max? = some target := by
  rcases heads?_of_emits ho hr with ⟨hmem, hnone⟩ | ⟨hmem, hsome⟩
  · exact .inl ⟨hmem, by rw [hnone]; rfl⟩
  · rw [hsome, Option.bind_some]
    have hnonempty : ∀ cs ∈ css, cs ≠ [] := fun cs hcs he => hmem (he ▸ hcs)
    have hheads : ∀ cs ∈ css, ∀ c ∈ cs.head?,
        c.shard ∈ css.filterMap fun cs => cs.head?.map (·.shard) := fun cs hcs c hc =>
      List.mem_filterMap.mpr ⟨cs, hcs, by rw [hc]; rfl⟩
    cases hg : (css.filterMap fun cs => cs.head?.map (·.shard)).max? with
    | none =>
      obtain ⟨cs, hcs⟩ := List.exists_mem_of_ne_nil css hne
      obtain ⟨c, cs, rfl⟩ := List.exists_cons_of_ne_nil (hnonempty cs hcs)
      have hc := hheads _ hcs c rfl
      rw [List.max?_eq_none_iff.mp hg] at hc
      simp at hc
    | some target =>
      obtain ⟨hin, hmax⟩ := Shard.greatest_of_max? hg
      obtain ⟨cs, hcs, he⟩ := List.mem_filterMap.mp hin
      obtain ⟨c, hc, rfl⟩ := Option.map_eq_some_iff.mp he
      obtain ⟨cs, rfl⟩ := List.head?_eq_some_iff.mp hc
      exact .inr ⟨_, ⟨hnonempty, ⟨c, cs, hcs, rfl⟩, fun cs hcs c hc => hmax _ (hheads cs hcs c hc)⟩,
        rfl⟩

/-- A round of moving ahead leaves every stream at the target or behind it, or one of them at
its end. It tells whether all were at the target before. -/
theorem align_of_emits (ho : Emitting kind ops R) (hr : List.Forall₂ R ss css) (target : ShardId)
    (hne : ∀ cs ∈ css, cs ≠ []) :
    ∃ aligned ss', align ops target ss = pure (aligned, ss') ∧
      ((aligned = none ∧ ∃ cs ∈ css, onward target cs = []) ∨
        ∃ b, aligned = some b ∧ List.Forall₂ R ss' (css.map (onward target)) ∧
          (b = true ↔ ∀ cs ∈ css, ∀ c ∈ cs.head?, c.shard = target)) := by
  induction hr with
  | nil => exact ⟨some true, [], rfl, .inr ⟨true, rfl, .nil, by simp⟩⟩
  | @cons s cs ss css hs hss ih =>
    obtain ⟨c, cs, rfl⟩ := List.exists_cons_of_ne_nil (hne _ List.mem_cons_self)
    obtain ⟨aligned, ss', ha, hcase⟩ := ih fun cs hcs => hne cs (List.mem_cons_of_mem _ hcs)
    have hday := (ho.listing hs).numbered c List.mem_cons_self
    rw [align, ho.head hs]
    simp only [List.head?_cons, Shard.covers_of_isDay_eq_false hday, Bool.false_eq_true, or_false]
    by_cases hc : c.shard = target
    · have hstay : onward target (c :: cs) = c :: cs :=
        onward_of_not_lt (ho.listing hs).ascending (hc ▸ String.lt_irrefl _)
      refine ⟨aligned, s :: ss', by rw [if_pos hc, ha]; rfl, ?_⟩
      rcases hcase with ⟨rfl, ds, hds, hnil⟩ | ⟨b, rfl, hss', hb⟩
      · exact .inl ⟨rfl, ds, List.mem_cons_of_mem _ hds, hnil⟩
      · refine .inr ⟨b, rfl, ?_, by simp [hb, hc]⟩
        rw [List.map_cons, hstay]
        exact .cons hs hss'
    · obtain ⟨s', hs', he⟩ := ho.seek target hs
      rw [if_neg hc, hs', pure_bind, ho.head he]
      cases hon : onward target (c :: cs) with
      | nil => exact ⟨none, s' :: ss, rfl, .inl ⟨rfl, _, List.mem_cons_self, hon⟩⟩
      | cons d ds =>
        refine ⟨aligned.map fun _ => false, s' :: ss', by rw [ha]; rfl, ?_⟩
        rcases hcase with ⟨rfl, bs, hbs, hnil⟩ | ⟨b, rfl, hss', -⟩
        · exact .inl ⟨rfl, bs, List.mem_cons_of_mem _ hbs, hnil⟩
        · refine .inr ⟨false, rfl, ?_, by simp [hc]⟩
          rw [List.map_cons]
          exact .cons he hss'

theorem takeAll_of_emits (ho : Emitting kind ops R) (hr : List.Forall₂ R ss css)
    (hat : ∀ cs ∈ css, ∃ c ∈ cs.head?, c.shard = target) :
    ∃ ss', takeAll ops target ss = pure (css.filterMap (evidenceAt · target), ss') ∧
      List.Forall₂ R ss' (css.map (beyond target)) := by
  induction hr with
  | nil => exact ⟨[], rfl, .nil⟩
  | @cons s cs ss css hs _ ih =>
    obtain ⟨c, hc, rfl⟩ := hat _ List.mem_cons_self
    obtain ⟨cs, rfl⟩ := List.head?_eq_some_iff.mp hc
    obtain ⟨s', hs', he⟩ := ho.advance hs
    obtain ⟨ss', hss', hes⟩ := ih fun cs hcs => hat cs (List.mem_cons_of_mem _ hcs)
    refine ⟨s' :: ss', ?_, ?_⟩
    · rw [takeAll, ho.head hs]
      simp only [List.head?_cons, if_true, hs', pure_bind, hss', List.filterMap_cons,
        evidenceAt_cons]
    · rw [List.map_cons, beyond_cons_self (ho.listing hs).ascending]
      exact .cons he hes

theorem askAll_of_answers (ha : Answering kind ops A) (hr : List.Forall₂ A ss gs)
    (hday : Shard.isDay target = false) :
    ∃ ss' hs, askAll ops target ss = pure (some (gs.map (· target)), ss') ∧
      List.Forall₂ A ss' hs ∧ ∀ id, target < id → hs.map (· id) = gs.map (· id) := by
  induction hr with
  | nil => exact ⟨[], [], rfl, .nil, fun _ _ => rfl⟩
  | cons hs _ ih =>
    obtain ⟨s', g', hs', hg', heq⟩ := ha.answer target hs hday
    obtain ⟨ss', gs', hss', hgs', heqs⟩ := ih
    refine ⟨s' :: ss', g' :: gs', ?_, .cons hg' hgs', fun id hid => ?_⟩
    · rw [askAll, hs', pure_bind]
      simp only [hss', pure_bind, Option.map_some, List.map_cons]
    · rw [List.map_cons, List.map_cons, heq id hid, heqs id hid]

/-! ### The invariant -/

/-- The candidate in view stands in front of what the streams still list. -/
def Emits (kind : Query → Prop) (R : σ → List Candidate → Prop)
    (A : σ → (ShardId → Evidence) → Prop) (j : Conjunction σ) (cs : List Candidate) : Prop :=
  ListingOf kind cs ∧ j.head = cs.head? ∧
    (cs ≠ [] → j.children ≠ [] ∧ (∀ q ∈ j.deferred, kind q) ∧
      ∃ css gs, List.Forall₂ R j.children css ∧ List.Forall₂ A j.asked gs ∧
        ∀ id, evidenceAt cs.tail id = evidenceOf j.deferred css gs id)

theorem emits_nil (hj : j.head = none) : j.Emits kind R A [] :=
  ⟨.nil, hj, fun h => absurd rfl h⟩

theorem ofKind_of_answering (ha : Answering kind ops A) (hr : List.Forall₂ A ss gs) :
    ∀ g ∈ gs, ∀ id, kind (g id).query := by
  induction hr with
  | nil => simp
  | cons hs _ ih =>
    intro g hg
    rcases List.mem_cons.mp hg with rfl | hg
    · exact ha.ofKind hs
    · exact ih g hg

theorem evidenceOf_of_lt_target (ht : IsTarget css target) (hcss : ∀ cs ∈ css, Ascending cs)
    (hid : id < target) : evidenceOf deferred css gs id = none := by
  obtain ⟨c, cs, hm, rfl⟩ := ht.mem
  apply evidenceOf_eq_none hm
  rw [evidenceAt_cons, if_neg (KeyOrder.ne_of_lt hid).symm]
  exact evidenceAt_of_lt (hcss _ hm) (KeyOrder.not_lt_of_lt hid)

theorem evidenceOf_map_onward (ht : IsTarget css target) (hcss : ∀ cs ∈ css, Ascending cs) :
    evidenceOf deferred (css.map (onward target)) gs id = evidenceOf deferred css gs id := by
  by_cases hid : id < target
  · obtain ⟨c, cs, hm, -⟩ := ht.mem
    rw [evidenceOf_of_lt_target ht hcss hid]
    apply evidenceOf_eq_none (List.mem_map_of_mem hm)
    rw [evidenceAt_onward, if_pos hid]
  · exact evidenceOf_congr (fun cs _ => by rw [evidenceAt_onward, if_neg hid]) rfl

theorem length_flatten_map_lt {f : List Candidate → List Candidate}
    (hle : ∀ cs ∈ css, (f cs).length ≤ cs.length) (hlt : ∃ cs ∈ css, (f cs).length < cs.length) :
    (css.map f).flatten.length < css.flatten.length := by
  rw [List.length_flatten, List.length_flatten, List.map_map]
  exact List.sum_lt_sum _ _ hle hlt

theorem exists_length_onward_lt (ht : IsTarget css target)
    (hnot : ¬ ∀ cs ∈ css, ∀ c ∈ cs.head?, c.shard = target) :
    ∃ cs ∈ css, (onward target cs).length < cs.length := by
  simp only [not_forall] at hnot
  obtain ⟨cs, hcs, c, hc, hne⟩ := hnot
  have hlt := KeyOrder.lt_of_not_lt (ht.greatest cs hcs c hc) fun h => hne h.symm
  obtain ⟨cs, rfl⟩ := List.head?_eq_some_iff.mp hc
  refine ⟨_, hcs, ?_⟩
  rw [onward_cons_of_lt hlt, List.length_cons]
  exact Nat.lt_succ_of_le length_onward_le

theorem map_onward_of_at_target (hasc : ∀ cs ∈ css, Ascending cs)
    (hat : ∀ cs ∈ css, ∃ c ∈ cs.head?, c.shard = target) : css.map (onward target) = css := by
  refine (List.map_congr_left fun cs hcs => ?_).trans (List.map_id css)
  obtain ⟨c, hc, rfl⟩ := hat cs hcs
  obtain ⟨cs, rfl⟩ := List.head?_eq_some_iff.mp hc
  exact onward_of_not_lt (hasc _ hcs) (String.lt_irrefl _)

theorem evidenceOf_at_target (hat : ∀ cs ∈ css, ∃ c ∈ cs.head?, c.shard = target) :
    evidenceOf deferred css gs target =
      (some (Evidence.conj (css.filterMap (evidenceAt · target) ++ gs.map (· target))
        deferred)).filter (!·.isEmpty) := by
  refine evidenceOf_def.trans (if_pos fun cs hcs => ?_)
  obtain ⟨c, hc, he⟩ := hat cs hcs
  exact isSome_evidenceAt_iff.mpr ⟨c, List.mem_of_head? hc, he⟩

theorem evidenceOf_map_beyond (hne : css ≠ [])
    (hg : ∀ id, target < id → hs.map (· id) = gs.map (· id)) :
    evidenceOf deferred (css.map (beyond target)) hs id =
      if target < id then evidenceOf deferred css gs id else none := by
  split
  · next hid =>
    exact evidenceOf_congr (fun cs _ => by rw [evidenceAt_beyond, if_pos hid]) (hg id hid)
  · next hid =>
    obtain ⟨cs, hcs⟩ := List.exists_mem_of_ne_nil css hne
    apply evidenceOf_eq_none (List.mem_map_of_mem hcs)
    rw [evidenceAt_beyond, if_neg hid]

theorem emits_at_target [Evidence.Keeps kind] (ha : Answering kind ops A) (ht : IsTarget css target)
    (hcss : ∀ cs ∈ css, ListingOf kind cs) (hne : j.children ≠ []) (hd : ∀ q ∈ j.deferred, kind q)
    (hchildren : List.Forall₂ R j.children (css.map (beyond target)))
    (hasked : List.Forall₂ A j.asked hs)
    (hg : ∀ id, target < id → hs.map (· id) = gs.map (· id)) {e : Evidence}
    (he : evidenceOf j.deferred css gs target = some e) (hkind : kind e.query)
    (hhead : j.head = some ⟨target, e⟩) :
    ∃ cs, j.Emits kind R A cs ∧ ∀ id, evidenceAt cs id = evidenceOf j.deferred css gs id := by
  obtain ⟨c₀, cs₀, hm₀, rfl⟩ := ht.mem
  have hcssne : css ≠ [] := List.ne_nil_of_mem hm₀
  have hasc : ∀ cs ∈ css, Ascending cs := fun cs hcs => (hcss cs hcs).ascending
  have hday := (hcss _ hm₀).numbered c₀ List.mem_cons_self
  have hbeyond : ∀ cs ∈ css.map (beyond c₀.shard), ListingOf kind cs := by
    rintro _ hm
    obtain ⟨cs, hcs, rfl⟩ := List.mem_map.mp hm
    exact (hcss cs hcs).beyond
  have hmapne : css.map (beyond c₀.shard) ≠ [] := by simpa using hcssne
  obtain ⟨rest, hrest, hr⟩ :=
    exists_listingOf_evidenceOf hmapne hbeyond (ofKind_of_answering ha hasked) hd
  have hlt : ∀ b ∈ rest, c₀.shard < b.shard := by
    intro b hb
    have hb' := (evidenceAt_eq_some_iff hrest.ascending).mpr hb
    rw [hr, evidenceOf_map_beyond hcssne hg] at hb'
    exact Classical.byContradiction fun hn => by simp [hn] at hb'
  have hlisting : ListingOf kind (⟨c₀.shard, e⟩ :: rest) := hrest.cons hday hkind hlt
  refine ⟨⟨c₀.shard, e⟩ :: rest,
    ⟨hlisting, hhead, fun _ => ⟨hne, hd, _, _, hchildren, hasked, hr⟩⟩, fun id => ?_⟩
  rw [evidenceAt_cons]
  by_cases hid : c₀.shard = id
  · obtain rfl := hid
    rw [if_pos rfl, he]
  · rw [if_neg hid, hr, evidenceOf_map_beyond hcssne hg]
    by_cases hlt : c₀.shard < id
    · rw [if_pos hlt]
    · rw [if_neg hlt, evidenceOf_of_lt_target ht hasc (KeyOrder.lt_of_not_lt hlt hid)]

/-! ### Rounds -/

/-- Within the given number of rounds a conjunction brings into view what its streams have. -/
def Refills (kind : Query → Prop) (ops : StreamOps σ) (R : σ → List Candidate → Prop)
    (A : σ → (ShardId → Evidence) → Prop) (n : Nat) : Prop :=
  ∀ {j : Conjunction σ} {css gs}, List.Forall₂ R j.children css → List.Forall₂ A j.asked gs →
    j.children ≠ [] → (∀ q ∈ j.deferred, kind q) → css.flatten.length < n →
    ∃ j' cs, j.refillWithin ops n = pure j' ∧ j'.Emits kind R A cs ∧
      (∀ id, evidenceAt cs id = evidenceOf j.deferred css gs id) ∧
      j'.query = j.query ∧ j'.context = j.context

variable {n : Nat}

theorem refills_of_agreed [Evidence.Keeps kind] (ho : Emitting kind ops R)
    (ha : Answering kind ops A) (ih : Refills kind ops R A n)
    (hr : List.Forall₂ R j.children css) (hg : List.Forall₂ A j.asked gs)
    (hd : ∀ q ∈ j.deferred, kind q) (hn : css.flatten.length < n + 1)
    (ht : IsTarget css target) (hb : (heads? ops j.children).bind List.max? = some target)
    (hall : ∀ cs ∈ css, ∀ c ∈ cs.head?, c.shard = target) {children : List σ}
    (hal : align ops target j.children = pure (some true, children))
    (hchildren : List.Forall₂ R children (css.map (onward target))) :
    ∃ j' cs, j.refillWithin ops (n + 1) = pure j' ∧ j'.Emits kind R A cs ∧
      (∀ id, evidenceAt cs id = evidenceOf j.deferred css gs id) ∧
      j'.query = j.query ∧ j'.context = j.context := by
  have hcss := ho.isListing hr
  have hasc : ∀ cs ∈ css, Ascending cs := fun cs hcs => (hcss cs hcs).ascending
  have hat : ∀ cs ∈ css, ∃ c ∈ cs.head?, c.shard = target := by
    intro cs hcs
    obtain ⟨c, cs, rfl⟩ := List.exists_cons_of_ne_nil (ht.nonempty cs hcs)
    exact ⟨c, rfl, hall _ hcs c rfl⟩
  obtain ⟨c₀, cs₀, hm₀, rfl⟩ := ht.mem
  have hcssne : css ≠ [] := List.ne_nil_of_mem hm₀
  have hday := (hcss _ hm₀).numbered c₀ List.mem_cons_self
  rw [map_onward_of_at_target hasc hat] at hchildren
  obtain ⟨taken, htake, htaken⟩ := takeAll_of_emits ho hchildren hat
  obtain ⟨asked, hs, hask, hasked, hsame⟩ := askAll_of_answers ha hg hday
  have htakenne : taken ≠ [] := by
    rintro rfl
    simp [hcssne] at htaken
  have hev : evidenceOf j.deferred css gs c₀.shard = _ := evidenceOf_at_target hat
  rw [refillWithin, hb]
  simp only [hal, htake, hask, pure_bind]
  split
  · next hempty =>
    have hlt : (css.map (beyond c₀.shard)).flatten.length < css.flatten.length :=
      length_flatten_map_lt (fun cs _ => length_beyond_le)
        ⟨_, hm₀, by rw [beyond_cons_self (hasc _ hm₀)]; exact Nat.lt_succ_self _⟩
    obtain ⟨j', cs, hj', he, hat', hctx⟩ :=
      ih (j := { j with children := taken, asked }) htaken hasked htakenne hd (by omega)
    refine ⟨j', cs, hj', he, fun id => ?_, hctx⟩
    rw [hat', evidenceOf_map_beyond hcssne hsame]
    split
    · rfl
    · next hid =>
      by_cases hc : c₀.shard = id
      · rw [← hc, hev, Option.filter_some, if_neg (by simpa using hempty)]
      · rw [evidenceOf_of_lt_target ht hasc (KeyOrder.lt_of_not_lt hid hc)]
  · next hempty =>
    rw [Option.filter_some, if_pos (by simpa using hempty)] at hev
    obtain ⟨cs, hemits, hat'⟩ := emits_at_target
      (j := ⟨j.query, j.context, taken, asked, j.deferred, _⟩) ha ht hcss htakenne hd htaken hasked
      hsame hev (ofKind_of_evidenceOf hcss (ofKind_of_answering ha hg) hd hev) rfl
    exact ⟨_, cs, rfl, hemits, hat', rfl, rfl⟩

theorem refills_succ [Evidence.Keeps kind] (ho : Emitting kind ops R)
    (ha : Answering kind ops A) (ih : Refills kind ops R A n) :
    Refills kind ops R A (n + 1) := by
  intro j css gs hr hg hne hd hn
  have hcss := ho.isListing hr
  have hasc : ∀ cs ∈ css, Ascending cs := fun cs hcs => (hcss cs hcs).ascending
  have hcssne : css ≠ [] := by
    rintro rfl
    exact hne (List.forall₂_nil_right_iff.mp hr)
  rcases isTarget_of_emits ho hr hcssne with ⟨hmem, hb⟩ | ⟨target, ht, hb⟩
  · refine ⟨{ j with head := none }, [], by rw [refillWithin, hb], emits_nil rfl, fun id => ?_,
      rfl, rfl⟩
    rw [evidenceOf_eq_none hmem evidenceAt_nil, evidenceAt_nil]
  obtain ⟨aligned, children, hal, hcase⟩ := align_of_emits ho hr target ht.nonempty
  rcases hcase with ⟨rfl, ds, hds, hnil⟩ | ⟨b, rfl, hchildren, hall⟩
  · refine ⟨{ j with children, head := none }, [], ?_, emits_nil rfl, fun id => ?_, rfl, rfl⟩
    · rw [refillWithin, hb]
      simp only [hal, pure_bind]
    · rw [← evidenceOf_map_onward ht hasc,
        evidenceOf_eq_none (List.mem_map_of_mem hds) (by rw [hnil, evidenceAt_nil]),
        evidenceAt_nil]
  cases b with
  | true => exact refills_of_agreed ho ha ih hr hg hd hn ht hb (hall.mp rfl) hal hchildren
  | false =>
    have hlt : (css.map (onward target)).flatten.length < css.flatten.length :=
      length_flatten_map_lt (fun cs _ => length_onward_le)
        (exists_length_onward_lt ht fun h => Bool.false_ne_true (hall.mpr h))
    have hchildrenne : children ≠ [] := by
      rintro rfl
      simp [hcssne] at hchildren
    obtain ⟨j', cs, hj', he, hat, hctx⟩ :=
      ih (j := { j with children }) hchildren hg hchildrenne hd (by omega)
    refine ⟨j', cs, ?_, he, fun id => (hat id).trans (evidenceOf_map_onward ht hasc), hctx⟩
    rw [refillWithin, hb]
    simp only [hal, pure_bind, hj']

theorem refills [Evidence.Keeps kind] (ho : Emitting kind ops R) (ha : Answering kind ops A) :
    ∀ n, Refills kind ops R A n
  | 0 => fun _ _ _ _ hn => absurd hn (Nat.not_lt_zero _)
  | n + 1 => refills_succ ho ha (refills ho ha n)

theorem refill_of_emits [Evidence.Keeps kind] (ho : Emitting kind ops R) (ha : Answering kind ops A)
    (hr : List.Forall₂ R j.children css) (hg : List.Forall₂ A j.asked gs)
    (hne : j.children ≠ []) (hd : ∀ q ∈ j.deferred, kind q) :
    ∃ j' cs, j.refill ops = pure j' ∧ j'.Emits kind R A cs ∧
      (∀ id, evidenceAt cs id = evidenceOf j.deferred css gs id) ∧
      j'.query = j.query ∧ j'.context = j.context :=
  refills ho ha _ hr hg hne hd (Nat.lt_succ_of_le (ho.length_flatten_le hr))

/-- A listing is determined by what the streams still list. -/
theorem refill_emits [Evidence.Keeps kind] (ho : Emitting kind ops R) (ha : Answering kind ops A)
    (hr : List.Forall₂ R j.children css) (hg : List.Forall₂ A j.asked gs)
    (hne : j.children ≠ []) (hd : ∀ q ∈ j.deferred, kind q) (hcs : Ascending cs)
    (hat : ∀ id, evidenceAt cs id = evidenceOf j.deferred css gs id) :
    ∃ j', j.refill ops = pure j' ∧ j'.Emits kind R A cs := by
  obtain ⟨j', cs', hj', he, hat', -⟩ := refill_of_emits ho ha hr hg hne hd
  obtain rfl := ext_evidenceAt he.1.ascending hcs fun id => (hat' id).trans (hat id).symm
  exact ⟨j', hj', he⟩

theorem advance_of_emits [Evidence.Keeps kind] (ho : Emitting kind ops R)
    (ha : Answering kind ops A) (h : j.Emits kind R A cs) :
    ∃ j', j.advance ops = pure (cs.head?, j') ∧ j'.Emits kind R A cs.tail := by
  have h' := h
  obtain ⟨hcs, hhead, hrest⟩ := h'
  cases cs with
  | nil => exact ⟨j, by rw [advance, hhead]; rfl, h⟩
  | cons c cs =>
    obtain ⟨hne, hd, css, gs, hr, hg, hat⟩ := hrest (by simp)
    obtain ⟨j', hj', he⟩ := refill_emits ho ha hr hg hne hd hcs.tail.ascending hat
    refine ⟨j', ?_, he⟩
    rw [advance, hhead, List.head?_cons]
    simp only [hj', pure_bind]

theorem seek_of_emits [Evidence.Keeps kind] (ho : Emitting kind ops R)
    (ha : Answering kind ops A) (id : ShardId) (h : j.Emits kind R A cs) :
    ∃ j', j.seek ops id = pure j' ∧ j'.Emits kind R A (onward id cs) := by
  have h' := h
  obtain ⟨hcs, hhead, hrest⟩ := h'
  rw [seek]
  cases cs with
  | nil => exact ⟨j, by rw [hhead]; rfl, h⟩
  | cons c cs =>
    have hany : (j.head.any fun c => Shard.precedes c.shard id) = decide (c.shard < id) := by
      rw [hhead, List.head?_cons, Option.any_some,
        Shard.precedes_of_isDay_eq_false (hcs.numbered c List.mem_cons_self)]
    rw [hany]
    by_cases hc : c.shard < id
    · obtain ⟨hne, hd, css, gs, hr, hg, hat⟩ := hrest (by simp)
      obtain ⟨children, hm, hchildren⟩ := ho.mapM_seek id hr
      have hchildrenne : children ≠ [] := by
        rintro rfl
        have hcss : css = [] := by simpa using hchildren
        exact hne (List.forall₂_nil_right_iff.mp (hcss ▸ hr))
      obtain ⟨bs, hbs⟩ : ∃ bs, bs ∈ css :=
        List.exists_mem_of_ne_nil css fun hcss => hne (List.forall₂_nil_right_iff.mp (hcss ▸ hr))
      have hat' : ∀ i, evidenceAt (onward id cs) i =
          evidenceOf j.deferred (css.map (onward id)) gs i := by
        intro i
        rw [evidenceAt_onward]
        split
        · next hi =>
          refine (evidenceOf_eq_none (List.mem_map_of_mem hbs) ?_).symm
          rw [evidenceAt_onward, if_pos hi]
        · next hi =>
          refine (hat i).trans (evidenceOf_congr (fun cs _ => ?_) rfl).symm
          rw [evidenceAt_onward, if_neg hi]
      obtain ⟨j', hj', he⟩ := refill_emits (j := { j with children }) ho ha hchildren hg
        hchildrenne hd (ascending_onward hcs.tail.ascending) hat'
      rw [if_pos (decide_eq_true hc), onward_cons_of_lt hc]
      exact ⟨j', by rw [hm, pure_bind, hj'], he⟩
    · rw [if_neg (by simpa using hc), onward_of_not_lt hcs.ascending hc]
      exact ⟨j, rfl, h⟩

theorem length_le_of_evidenceOf (hcs : Ascending cs) (hne : css ≠ [])
    (hat : ∀ id, evidenceAt cs id = evidenceOf deferred css gs id) :
    cs.length ≤ css.flatten.length := by
  obtain ⟨ds, hds⟩ := List.exists_mem_of_ne_nil css hne
  have hsub : ∀ id ∈ cs.map (·.shard), id ∈ ds.map (·.shard) := by
    intro id hid
    obtain ⟨c, hc, rfl⟩ := List.mem_map.mp hid
    have he := (evidenceAt_eq_some_iff hcs).mpr hc
    rw [hat] at he
    obtain ⟨b, hb, he⟩ := isSome_evidenceAt_iff.mp ((evidenceOf_eq_some he).1 ds hds)
    exact List.mem_map.mpr ⟨b, hb, he⟩
  have hnodup : (cs.map (·.shard)).Nodup :=
    List.pairwise_map.mpr (hcs.imp fun hlt => KeyOrder.ne_of_lt hlt)
  have hle := (List.Nodup.subperm hnodup hsub).length_le
  rw [List.length_map, List.length_map] at hle
  exact hle.trans (List.sublist_flatten_of_mem hds).length_le

theorem remaining_of_emits (ho : Emitting kind ops R) (h : j.Emits kind R A cs) :
    cs.length ≤ j.remaining ops := by
  obtain ⟨hcs, hhead, hrest⟩ := h
  cases cs with
  | nil => exact Nat.zero_le _
  | cons c cs =>
    obtain ⟨hne, -, css, gs, hr, -, hat⟩ := hrest (by simp)
    have hcssne : css ≠ [] := fun hcss => hne (List.forall₂_nil_right_iff.mp (hcss ▸ hr))
    have hle := length_le_of_evidenceOf hcs.tail.ascending hcssne hat
    have := ho.length_flatten_le hr
    rw [remaining, hhead, List.head?_cons, Option.toList_some, List.length_cons,
      List.length_singleton]
    rw [List.tail_cons] at hle
    omega

/-! ### Answers -/

/-- A mixed conjunction has its whole query for every shard. -/
def Answers (kind : Query → Prop) (j : Conjunction σ) (g : ShardId → Evidence) : Prop :=
  j.context = .mixed ∧ kind j.query ∧ ∀ id, g id = .unknown j.query

theorem answer_of_answers {g : ShardId → Evidence} (id : ShardId) (h : j.Answers kind g) :
    j.answer ops id = pure (some ⟨id, g id⟩, j) := by
  rw [answer, h.1, h.2.2]

end Conjunction

end ShardedSearch.Merge
