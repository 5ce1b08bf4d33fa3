import ShardedSearch.Proofs.Merge.Made
import ShardedSearch.Proofs.Order.Matching
import ShardedSearch.Proofs.Shard

/-! # Shards and days in merges

Streams may list shards, days, and a day together with its own shards; a day stands for all
of its shards. Neither a conjunction nor a disjunction loses or invents a shard, and behind a
day a disjunction lists none of the day's shards.
-/

namespace ShardedSearch

namespace Shard

variable {a b id shard target : ShardId}

/-- An id stands for itself, and a day for its shards. -/
def StandsFor (id shard : ShardId) : Prop := id = shard ∨ covers id shard = true

instance (id shard : ShardId) : Decidable (StandsFor id shard) :=
  inferInstanceAs (Decidable (_ ∨ _))

theorem not_lt_of_standsFor (h : StandsFor id shard) : ¬ shard < id := by
  rcases h with rfl | h
  · exact String.lt_irrefl id
  · exact KeyOrder.not_lt_of_lt (lt_of_covers h)

theorem StandsFor.trans (h : StandsFor a b) (hb : StandsFor b shard) : StandsFor a shard := by
  rcases h with rfl | hab
  · exact hb
  · rcases hb with rfl | hb
    · exact .inr hab
    · have hnot := (covers_iff_dayOf.mp hab).2.2
      rw [(covers_iff_dayOf.mp hb).1] at hnot
      cases hnot

theorem precedes_eq_false_of_standsFor (ha : IsDated a) (ht : IsDated target)
    (hb : ¬ b < target) (has : StandsFor a shard) (hbs : StandsFor b shard) :
    precedes a target = false := by
  refine Bool.eq_false_iff.mpr fun hp => ?_
  obtain ⟨hlt, hncov⟩ := precedes_iff.mp hp
  have hab : a < b := KeyOrder.lt_of_lt_of_not_lt hlt hb
  rcases has with rfl | has
  · exact not_lt_of_standsFor hbs hab
  · rcases hbs with rfl | hbs
    · rcases KeyOrder.lt_or_eq_of_not_lt hb with hlt' | rfl
      · rw [dayOf_eq_of_covers ha ht hlt hlt' has] at hncov
        cases hncov
      · rw [has] at hncov
        cases hncov
    · have hday : dayOf shard = a := (covers_iff_dayOf.mp has).2.1
      rw [← (covers_iff_dayOf.mp hbs).2.1, hday] at hab
      exact String.lt_irrefl _ hab

end Shard

namespace Candidate

open Shard (StandsFor IsDated)

variable {c d : Candidate} {cs ds : List Candidate} {css dss : List (List Candidate)}
variable {id shard target : ShardId}

/-- Days of eight digits and shards of such days in strictly ascending order, with records
that are not known. -/
structure IsDayListing (cs : List Candidate) : Prop where
  ascending : Ascending cs
  dated : ∀ c ∈ cs, IsDated c.shard
  unknown : ∀ c ∈ cs, c.evidence.found = .unknown

namespace IsDayListing

theorem sublist (h : IsDayListing cs) (hs : ds.Sublist cs) : IsDayListing ds :=
  ⟨h.ascending.sublist hs, fun c hc => h.dated c (hs.subset hc),
    fun c hc => h.unknown c (hs.subset hc)⟩

theorem not_lt (h : IsDayListing (c :: cs)) (hd : d ∈ c :: cs) : ¬ d.shard < c.shard := by
  rcases List.mem_cons.mp hd with rfl | hd
  · exact String.lt_irrefl _
  · exact KeyOrder.not_lt_of_lt ((List.pairwise_cons.mp h.ascending).1 d hd)

end IsDayListing

/-- Candidates cover a shard if one of them stands for it. -/
def Covers (cs : List Candidate) (shard : ShardId) : Prop := ∃ c ∈ cs, StandsFor c.shard shard

theorem Covers.mono (h : Covers cs shard) (hs : cs ⊆ ds) : Covers ds shard := by
  obtain ⟨c, hc, hstands⟩ := h
  exact ⟨c, hs hc, hstands⟩

theorem not_covers_nil : ¬ Covers [] shard := by
  rintro ⟨c, hc, -⟩
  exact List.not_mem_nil hc

theorem covers_cons : Covers (c :: cs) shard ↔ StandsFor c.shard shard ∨ Covers cs shard := by
  simp [Covers]

def AllCover (css : List (List Candidate)) (shard : ShardId) : Prop :=
  ∀ cs ∈ css, Covers cs shard

def AnyCovers (css : List (List Candidate)) (shard : ShardId) : Prop :=
  ∃ cs ∈ css, Covers cs shard

/-- The candidate in view stands for a shard, or the shard is covered behind it. -/
def Leaves (head : Option Candidate) (Covered : ShardId → Prop) (shard : ShardId) : Prop :=
  (∃ c ∈ head, StandsFor c.shard shard) ∨ head.isSome = true ∧ Covered shard

/-- The candidates from the first on that need not move on to reach a shard. -/
def reaching (id : ShardId) (cs : List Candidate) : List Candidate :=
  cs.dropWhile fun c => Shard.precedes c.shard id

theorem reaching_sublist : (reaching id cs).Sublist cs := List.dropWhile_sublist _

theorem mem_dropWhile {p : Candidate → Bool} (hc : c ∈ cs) (hp : p c = false) :
    c ∈ cs.dropWhile p := by
  have hsplit := List.takeWhile_append_dropWhile (p := p) (l := cs)
  rw [← hsplit, List.mem_append] at hc
  exact hc.resolve_left fun h => by simp [List.mem_takeWhile_imp h] at hp

/-- Moving on to the first candidate of another list loses no shard that both cover. -/
theorem covers_reaching (hcs : IsDayListing cs) (hds : IsDayListing (d :: ds))
    (hboth : Covers (d :: ds) shard) (h : Covers cs shard) :
    Covers (reaching d.shard cs) shard := by
  obtain ⟨c, hc, hcs'⟩ := h
  obtain ⟨b, hb, hbs⟩ := hboth
  have hnot := Shard.precedes_eq_false_of_standsFor (hcs.dated c hc)
    (hds.dated d List.mem_cons_self) (hds.not_lt hb) hcs' hbs
  exact ⟨c, mem_dropWhile hc hnot, hcs'⟩

/-- The candidates behind a shard that is taken, and all if another one comes first. -/
def without (id : ShardId) (cs : List Candidate) : List Candidate :=
  if cs.head?.any (·.shard = id) then cs.tail else cs

theorem without_sublist : (without id cs).Sublist cs := by
  unfold without
  split
  · exact List.tail_sublist cs
  · exact List.Sublist.refl cs

theorem covers_without (h : Covers cs shard) (hnot : ¬ StandsFor id shard) :
    Covers (without id cs) shard := by
  unfold without
  split
  · next hat =>
    cases cs with
    | nil => exact absurd h not_covers_nil
    | cons c cs =>
      obtain rfl : c.shard = id := of_decide_eq_true hat
      exact (covers_cons.mp h).resolve_left hnot
  · exact h

def behind (id : ShardId) (cs : List Candidate) : List Candidate :=
  cs.dropWhile fun c => StandsFor id c.shard

theorem behind_cons :
    behind id (c :: cs) = if StandsFor id c.shard then behind id cs else c :: cs := by
  by_cases h : StandsFor id c.shard
  · rw [behind, List.dropWhile_cons_of_pos (by simpa using h), if_pos h, behind]
  · rw [behind, List.dropWhile_cons_of_neg (by simpa using h), if_neg h]

theorem behind_sublist : (behind id cs).Sublist cs := List.dropWhile_sublist _

theorem covers_behind (h : Covers cs shard) (hnot : ¬ StandsFor id shard) :
    Covers (behind id cs) shard := by
  obtain ⟨c, hc, hstands⟩ := h
  have hkept : ¬ StandsFor id c.shard := fun hid => hnot (hid.trans hstands)
  exact ⟨c, mem_dropWhile hc (by simpa using hkept), hstands⟩

theorem precedes_of_mem_behind (hcs : IsDayListing cs) (hid : IsDated id)
    (hmin : ∀ c ∈ cs, ¬ c.shard < id) : ∀ c ∈ behind id cs, Shard.precedes id c.shard = true := by
  induction cs with
  | nil => exact fun c hc => absurd hc List.not_mem_nil
  | cons c cs ih =>
    have hmin' := fun b hb => hmin b (List.mem_cons_of_mem c hb)
    rw [behind_cons]
    split
    · exact ih (hcs.sublist (List.sublist_cons_self c cs)) hmin'
    · next hnot =>
      obtain ⟨hne, hcov⟩ := not_or.mp hnot
      have hlt := KeyOrder.lt_of_not_lt (hmin c List.mem_cons_self) (Ne.symm hne)
      have hhead : Shard.precedes id c.shard = true :=
        Shard.precedes_iff.mpr ⟨hlt, by simpa using hcov⟩
      refine List.forall_mem_cons.mpr ⟨hhead, fun b hb => ?_⟩
      exact Shard.precedes_trans hid (hcs.dated c List.mem_cons_self) hhead
        ((List.pairwise_cons.mp hcs.ascending).1 b hb)

end Candidate

namespace Merge

open Candidate
open Shard (StandsFor)

variable {σ : Type} {ops : StreamOps σ} {W : σ → Prop} {Lists : σ → List Candidate → Prop}
variable {ss : List σ} {c : Candidate} {cs : List Candidate} {css dss : List (List Candidate)}
variable {id shard target : ShardId} {n : Nat}

/-- Streams that go through a list from its first candidate on. -/
structure Listed (ops : StreamOps σ) (W : σ → Prop) (Lists : σ → List Candidate → Prop) :
    Prop where
  diminishing : Diminishing ops W
  settled : ∀ {s cs}, Lists s cs → W s
  listing : ∀ {s cs}, Lists s cs → IsDayListing cs
  head : ∀ {s cs}, Lists s cs → ops.head s = cs.head?
  advance : ∀ {s cs}, Lists s cs → Lists (ops.advance s).value.2 cs.tail
  seek : ∀ {s cs} id, Lists s cs → Lists (ops.seek id s).value (reaching id cs)

namespace Listed

variable (h : Listed ops W Lists)
include h

theorem settled_of_forall₂ (hr : List.Forall₂ Lists ss css) : ∀ s ∈ ss, W s := by
  intro s hs
  obtain ⟨cs, -, hlists⟩ := exists_right_of_forall₂ hr s hs
  exact h.settled hlists

theorem listing_of_forall₂ (hr : List.Forall₂ Lists ss css) : ∀ cs ∈ css, IsDayListing cs := by
  intro cs hcs
  obtain ⟨s, -, hlists⟩ := exists_right_of_forall₂ hr.flip cs hcs
  exact h.listing hlists

theorem exists_cons_of_head (hr : List.Forall₂ Lists ss css) {s : σ} (hs : s ∈ ss)
    (hc : c ∈ ops.head s) : ∃ cs, c :: cs ∈ css := by
  obtain ⟨cs, hcs, hlists⟩ := exists_right_of_forall₂ hr s hs
  rw [h.head hlists] at hc
  obtain ⟨rest, rfl⟩ := List.head?_eq_some_iff.mp hc
  exact ⟨rest, hcs⟩

theorem forall_head? (hr : List.Forall₂ Lists ss css) {P : Candidate → Prop}
    (hp : ∀ s ∈ ss, ∃ c ∈ ops.head s, P c) : ∀ cs ∈ css, ∃ c ∈ cs.head?, P c := by
  intro cs hcs
  obtain ⟨s, hs, hlists⟩ := exists_right_of_forall₂ hr.flip cs hcs
  rw [← h.head hlists]
  exact hp s hs

end Listed

/-! ### Conjunctions -/

namespace Conjunction

variable {j : Conjunction σ}

/-- Lists that a shard is sought in, each as it is or from the shard on. -/
def Sought (target : ShardId) : List (List Candidate) → List (List Candidate) → Prop :=
  List.Forall₂ fun cs ds => ds = cs ∨ ds = reaching target cs

theorem sought_refl (css : List (List Candidate)) : Sought target css css :=
  forall₂_refl (fun _ => .inl rfl) css

/-- Seeking the first candidate of one of the lists loses no shard that all of them cover. -/
theorem allCover_sought {d : Candidate} {ds : List Candidate}
    (hcss : ∀ cs ∈ css, IsDayListing cs) (hd : d :: ds ∈ css) (hs : Sought d.shard css dss) :
    AllCover dss shard ↔ AllCover css shard := by
  constructor
  · intro hall
    refine mem_of_forall₂ hs.flip fun es hes cs hcs => (hall es hes).mono ?_
    rcases hcs with rfl | rfl
    · exact List.Subset.refl _
    · exact reaching_sublist.subset
  · intro hall
    refine mem_of_forall₂ hs fun cs hcs es hes => ?_
    rcases hes with rfl | rfl
    · exact hall _ hcs
    · exact covers_reaching (hcss cs hcs) (hcss _ hd) (hall _ hd) (hall cs hcs)

theorem allCover_iff_without
    (hat : ∀ cs ∈ css, ∃ c ∈ cs.head?, c.shard = target ∨ Shard.covers c.shard target = true) :
    AllCover css shard ↔ StandsFor target shard ∨ AllCover (css.map (without target)) shard := by
  constructor
  · intro hall
    by_cases hstands : StandsFor target shard
    · exact .inl hstands
    · exact .inr (List.forall_mem_map.mpr fun cs hcs => covers_without (hall cs hcs) hstands)
  · rintro (hstands | hall)
    · intro cs hcs
      obtain ⟨c, hc, hcat⟩ := hat cs hcs
      exact ⟨c, List.mem_of_mem_head? hc, StandsFor.trans hcat hstands⟩
    · intro cs hcs
      exact (List.forall_mem_map.mp hall cs hcs).mono without_sublist.subset

theorem nil_mem_of_target_eq_none (h : Listed ops W Lists) (hr : List.Forall₂ Lists ss css)
    (hne : css ≠ []) (hb : (heads? ops ss).bind List.max? = none) : [] ∈ css := by
  cases hids : heads? ops ss with
  | none =>
    clear hb hne
    induction hr with
    | nil => cases hids
    | @cons s cs ss css hs _ ih =>
      rw [heads?] at hids
      cases hc : ops.head s with
      | none =>
        rw [h.head hs, List.head?_eq_none_iff] at hc
        exact hc ▸ List.mem_cons_self
      | some c =>
        cases hrest : heads? ops ss with
        | none => exact List.mem_cons_of_mem _ (ih hrest)
        | some ids => simp [hc, hrest] at hids
  | some ids =>
    rw [hids, Option.bind_some, List.max?_eq_none_iff] at hb
    obtain ⟨s, hs⟩ := List.exists_mem_of_ne_nil ss fun hnil => hne (by
      subst hnil
      exact List.forall₂_nil_left_iff.mp hr)
    obtain ⟨c, -, hm⟩ := (mem_heads? hids).1 s hs
    rw [hb] at hm
    cases hm

section Merging

variable (h : Listed ops W Lists)
include h

theorem align_lists (target : ShardId) (hr : List.Forall₂ Lists ss css) :
    ∃ dss, List.Forall₂ Lists (align ops target ss).value.2 dss ∧ Sought target css dss ∧
      ((align ops target ss).value.1 = none → [] ∈ dss) := by
  induction hr with
  | nil => exact ⟨[], .nil, .nil, nofun⟩
  | @cons s cs ss css hs hr ih =>
    obtain ⟨dss, hdss, hsought, hend⟩ := ih
    rw [align]
    split
    · split
      · exact ⟨cs :: dss, .cons hs hdss, .cons (.inl rfl) hsought,
          fun hnone => List.mem_cons_of_mem cs (hend hnone)⟩
      · have hseek := h.seek target hs
        rw [Raising.value_bind]
        split
        · refine ⟨reaching target cs :: dss, .cons hseek hdss, .cons (.inr rfl) hsought,
            fun hnone => List.mem_cons_of_mem _ (hend ?_)⟩
          exact Option.map_eq_none_iff.mp hnone
        · next hnone =>
          refine ⟨reaching target cs :: css, .cons hseek hr, .cons (.inr rfl) (sought_refl css),
            fun _ => ?_⟩
          rw [Option.not_isSome_iff_eq_none, h.head hseek, List.head?_eq_none_iff] at hnone
          rw [hnone]
          exact List.mem_cons_self
    · next hnone =>
      rw [h.head hs, List.head?_eq_none_iff] at hnone
      exact ⟨cs :: css, .cons hs hr, sought_refl _, fun _ => hnone ▸ List.mem_cons_self⟩

theorem takeAll_lists (target : ShardId) (hr : List.Forall₂ Lists ss css) :
    List.Forall₂ Lists (takeAll ops target ss).value.2 (css.map (without target)) := by
  induction hr with
  | nil => exact .nil
  | cons hs _ ih =>
    rw [takeAll_cons, List.map_cons, without, h.head hs]
    refine .cons ?_ ih
    split
    · exact h.advance hs
    · exact hs

theorem unknown_takeAll (target : ShardId) (hr : List.Forall₂ Lists ss css) :
    ∀ e ∈ (takeAll ops target ss).value.1, e.found = .unknown := by
  intro e he
  rw [evidence_takeAll] at he
  obtain ⟨s, hs, hse⟩ := List.mem_filterMap.mp he
  obtain ⟨c, hc, rfl⟩ := Option.map_eq_some_iff.mp hse
  obtain ⟨cs, hcs⟩ := h.exists_cons_of_head hr hs hc
  exact (h.listing_of_forall₂ hr _ hcs).unknown c List.mem_cons_self

omit h in
theorem foldl_combine_unknown (ms : List Matches) :
    ms.foldl (Matches.combine SortedSet.inter) .unknown = .unknown := by
  induction ms with
  | nil => rfl
  | cons m ms ih => exact ih

omit h in
theorem isEmpty_conj_of_unknown {es : List Evidence} (hes : ∀ e ∈ es, e.found = .unknown) :
    (Evidence.conj es []).isEmpty = false := by
  cases es with
  | nil => rfl
  | cons e es =>
    have hfound : (Evidence.conj (e :: es) []).found = .unknown := by
      change (es.map (·.found)).foldl (Matches.combine SortedSet.inter) e.found = .unknown
      rw [hes e List.mem_cons_self, foldl_combine_unknown]
    rw [Evidence.isEmpty, hfound]
    rfl

theorem isEmpty_taken (target : ShardId) (hr : List.Forall₂ Lists ss css) {deferred : List Query}
    (hdeferred : deferred = []) :
    (Evidence.conj ((takeAll ops target ss).value.1 ++ []) deferred).isEmpty = false := by
  rw [hdeferred, List.append_nil]
  exact isEmpty_conj_of_unknown (unknown_takeAll h target hr)

structure Holds (Lists : σ → List Candidate → Prop) (j : Conjunction σ)
    (css : List (List Candidate)) : Prop where
  children : List.Forall₂ Lists j.children css
  nonempty : css ≠ []
  asked : j.asked = []
  deferred : j.deferred = []

omit h in
theorem not_allCover_of_nil_mem (hnil : [] ∈ css) : ¬ AllCover css shard :=
  fun hall => not_covers_nil (hall [] hnil)

/-- Bringing a candidate into view loses and invents no shard. -/
theorem refillWithin_lists (hj : j.Holds Lists css)
    (hn : ops.remainingOfAll j.children < n) :
    ∃ dss, (j.refillWithin ops n).value.Holds Lists dss ∧
      ∀ shard, Leaves (j.refillWithin ops n).value.head (AllCover dss) shard ↔
        AllCover css shard := by
  induction n generalizing j css with
  | zero => omega
  | succ n ih =>
    have hnothing : ∀ {children dss}, List.Forall₂ Lists children dss → dss ≠ [] →
        (∀ shard, ¬ AllCover css shard) →
        ∃ ess, Holds Lists { j with children, head := none } ess ∧
          ∀ shard, Leaves none (AllCover ess) shard ↔ AllCover css shard :=
      fun {children dss} hr hne hnot => ⟨dss, ⟨hr, hne, hj.asked, hj.deferred⟩, fun shard => by
        simp [Leaves, hnot shard]⟩
    cases hb : (heads? ops j.children).bind List.max? with
    | none =>
      have hnil := nil_mem_of_target_eq_none h hj.children hj.nonempty hb
      rw [refillWithin, hb]
      exact hnothing hj.children hj.nonempty fun _ => not_allCover_of_nil_mem hnil
    | some target =>
      obtain ⟨⟨s, hs, d, hd, rfl⟩, hmax⟩ := exists_mem_of_target hb
      obtain ⟨ds, hds⟩ := h.exists_cons_of_head hj.children hs hd
      obtain ⟨dss, hr, hsought, hend⟩ := align_lists h d.shard hj.children
      have hsame : ∀ shard, AllCover dss shard ↔ AllCover css shard := fun _ =>
        allCover_sought (h.listing_of_forall₂ hj.children) hds hsought
      have hne : dss ≠ [] := by
        rintro rfl
        exact hj.nonempty (List.forall₂_nil_right_iff.mp hsought)
      cases hal : (align ops d.shard j.children).value with
      | mk aligned children =>
        rw [hal] at hr hend
        rcases aligned with _ | _ | _
        · rw [refillWithin_of_ended hb (by rw [hal]), hal]
          exact hnothing hr hne fun shard hall =>
            not_allCover_of_nil_mem (hend rfl) ((hsame shard).mpr hall)
        · have hlt := sum_align h.diminishing (h.settled_of_forall₂ hj.children) hmax hal
          obtain ⟨ess, hk, hleaves⟩ := ih (j := { j with children })
            ⟨hr, hne, hj.asked, hj.deferred⟩ (by dsimp only; omega)
          rw [refillWithin_of_moved hb hal]
          exact ⟨ess, hk, fun shard => (hleaves shard).trans (hsame shard)⟩
        · obtain ⟨rfl, hat⟩ := align_eq_true hal
          have hask : (askAll ops d.shard j.asked).value = (some [], []) := by
            rw [hj.asked]
            rfl
          have hempty := isEmpty_taken h d.shard hr hj.deferred
          rw [refillWithin_of_aligned hb hal hask]
          simp only [hempty, Bool.false_eq_true, if_false]
          refine ⟨dss.map (without d.shard), ⟨takeAll_lists h d.shard hr, by simpa using hne, rfl,
            hj.deferred⟩, fun shard => ?_⟩
          rw [← hsame shard, allCover_iff_without (h.forall_head? hr hat)]
          simp [Leaves]

theorem refill_lists (hj : j.Holds Lists css) :
    ∃ dss, (j.refill ops).value.Holds Lists dss ∧
      ∀ shard, Leaves (j.refill ops).value.head (AllCover dss) shard ↔ AllCover css shard :=
  refillWithin_lists h hj (Nat.lt_succ_self _)

end Merging

end Conjunction

/-! ### Disjunctions -/

namespace Disjunction

variable {d : Disjunction σ}

def Names (css : List (List Candidate)) (id : ShardId) : Prop :=
  ∃ cs ∈ css, ∃ c ∈ cs, c.shard = id

theorem anyCovers_iff_behind (hat : Names css id) :
    AnyCovers css shard ↔ StandsFor id shard ∨ AnyCovers (css.map (behind id)) shard := by
  constructor
  · rintro ⟨cs, hcs, hcovers⟩
    by_cases hstands : StandsFor id shard
    · exact .inl hstands
    · exact .inr ⟨behind id cs, List.mem_map_of_mem hcs, covers_behind hcovers hstands⟩
  · rintro (hstands | ⟨ds, hds, hcovers⟩)
    · obtain ⟨cs, hcs, c, hc, rfl⟩ := hat
      exact ⟨cs, hcs, c, hc, hstands⟩
    · obtain ⟨cs, hcs, rfl⟩ := List.mem_map.mp hds
      exact ⟨cs, hcs, hcovers.mono behind_sublist.subset⟩

theorem takeFrom_succ {s : σ} (hc : ops.head s = some c) :
    (takeFrom ops id (n + 1) s).value.2 = if StandsFor id c.shard then
      (takeFrom ops id n (ops.advance s).value.2).value.2 else s := by
  have hat : (c.shard = id ∨ Shard.covers id c.shard = true) ↔ StandsFor id c.shard :=
    or_congr_left eq_comm
  rw [takeFrom, hc]
  by_cases hstands : StandsFor id c.shard
  · simp only [if_pos hstands, if_pos (hat.mpr hstands)]
    rfl
  · simp only [if_neg hstands, if_neg (hat.not.mpr hstands)]
    rfl

section Merging

variable (h : Listed ops W Lists)
include h

theorem takeFrom_lists {s : σ} (hs : Lists s cs) (hn : ops.remaining s ≤ n) :
    Lists (takeFrom ops id n s).value.2 (behind id cs) := by
  induction n generalizing s cs with
  | zero =>
    have hnone := h.diminishing.head_eq_none (h.settled hs) (Nat.le_zero.mp hn)
    rw [h.head hs, List.head?_eq_none_iff] at hnone
    exact hnone ▸ hs
  | succ n ih =>
    have hhead := h.head hs
    cases cs with
    | nil =>
      rw [takeFrom, hhead]
      exact hs
    | cons c cs =>
      have hlt := h.diminishing.remaining_advance (h.settled hs) c hhead
      rw [takeFrom_succ hhead, behind_cons]
      split
      · exact ih (h.advance hs) (by omega)
      · exact hs

/-- A shard is taken once; no other id of a list stands for it. -/
theorem takeFrom_one_lists {s : σ} (hs : Lists s cs) (hid : Shard.isDay id = false) :
    Lists (takeFrom ops id 1 s).value.2 (behind id cs) := by
  have hself : ∀ {i}, StandsFor id i → id = i := fun hstands =>
    hstands.resolve_right fun hcov => by simp [(Shard.covers_iff_dayOf.mp hcov).1] at hid
  have hhead := h.head hs
  cases cs with
  | nil =>
    rw [takeFrom, hhead]
    exact hs
  | cons c cs =>
    rw [takeFrom_succ hhead, behind_cons]
    split
    · next hstands =>
      -- what follows the shard is above it
      have hrest : behind id cs = cs := by
        cases cs with
        | nil => rfl
        | cons b cs =>
          have hlt := (List.pairwise_cons.mp (h.listing hs).ascending).1 b List.mem_cons_self
          rw [behind_cons, if_neg]
          intro hb
          rw [← hself hstands, ← hself hb] at hlt
          exact String.lt_irrefl _ hlt
      rw [hrest]
      exact h.advance hs
    · exact hs

theorem takeAll_lists (id : ShardId) (hr : List.Forall₂ Lists ss css) :
    List.Forall₂ Lists (takeAll ops id ss).value.2 (css.map (behind id)) := by
  induction hr with
  | nil => exact .nil
  | @cons s cs ss css hs _ ih =>
    refine .cons ?_ ih
    cases hid : Shard.isDay id with
    | true => exact takeFrom_lists h hs (Nat.le_refl _)
    | false => exact takeFrom_one_lists h hs hid

/-- What a disjunction has in view, and what its streams still have behind it. -/
structure Refilled (Lists : σ → List Candidate → Prop) (css : List (List Candidate))
    (d : Disjunction σ) (dss : List (List Candidate)) : Prop where
  children : List.Forall₂ Lists d.children dss
  leaves : ∀ shard, Leaves d.head (AnyCovers dss) shard ↔ AnyCovers css shard
  named : ∀ c ∈ d.head, Names css c.shard
  kept : ∀ id, Names dss id → Names css id
  ahead : ∀ c ∈ d.head, ∀ id, Names dss id → Shard.precedes c.shard id = true

omit h in
theorem not_lt_of_heads (hcss : ∀ cs ∈ css, IsDayListing cs)
    (hheads : ∀ cs ∈ css, ∀ c ∈ cs.head?, ¬ c.shard < id) :
    ∀ cs ∈ css, ∀ c ∈ cs, ¬ c.shard < id := by
  intro cs hcs c hc hlt
  cases cs with
  | nil => exact List.not_mem_nil hc
  | cons b cs =>
    rcases List.mem_cons.mp hc with rfl | hc
    · exact hheads _ hcs c rfl hlt
    · have hbc := (List.pairwise_cons.mp (hcss _ hcs).ascending).1 c hc
      exact hheads _ hcs b rfl (KeyOrder.trans hbc hlt)

theorem refill_lists (hr : List.Forall₂ Lists d.children css) :
    ∃ dss, Refilled Lists css (d.refill ops).value dss := by
  have hlistings := h.listing_of_forall₂ hr
  rw [value_refill]
  split
  · next id hl =>
    obtain ⟨⟨s, hs, c, hc, rfl⟩, hmin⟩ := exists_mem_of_lowest? hl
    obtain ⟨cs, hcs⟩ := h.exists_cons_of_head hr hs hc
    have hnamed : Names css c.shard := ⟨_, hcs, c, List.mem_cons_self, rfl⟩
    have hdated := (hlistings _ hcs).dated c List.mem_cons_self
    have hmin' := not_lt_of_heads hlistings fun ds hds b hb => by
      obtain ⟨t, ht, hlists⟩ := exists_right_of_forall₂ hr.flip ds hds
      rw [← h.head hlists] at hb
      exact hmin t ht b hb
    refine ⟨css.map (behind c.shard), takeAll_lists h c.shard hr, fun shard => ?_,
      fun b hb => ?_, fun id hid => ?_, fun b hb id hid => ?_⟩
    · rw [anyCovers_iff_behind hnamed]
      simp [Leaves]
    · obtain rfl := Option.some.inj hb
      exact hnamed
    · obtain ⟨ds, hds, b, hb, rfl⟩ := hid
      obtain ⟨es, hes, rfl⟩ := List.mem_map.mp hds
      exact ⟨es, hes, b, behind_sublist.subset hb, rfl⟩
    · obtain rfl := Option.some.inj hb
      obtain ⟨ds, hds, a, ha, rfl⟩ := hid
      obtain ⟨es, hes, rfl⟩ := List.mem_map.mp hds
      exact precedes_of_mem_behind (hlistings es hes) hdated (hmin' es hes) a ha
  · next hl =>
    have hempty : ∀ cs ∈ css, cs = [] := by
      intro cs hcs
      obtain ⟨s, hs, hlists⟩ := exists_right_of_forall₂ hr.flip cs hcs
      have hnone := List.filterMap_eq_nil_iff.mp (List.min?_eq_none_iff.mp hl) s hs
      rw [h.head hlists] at hnone
      exact List.head?_eq_none_iff.mp (Option.map_eq_none_iff.mp hnone)
    refine ⟨css, hr, fun shard => ?_, nofun, fun _ hid => hid, nofun⟩
    have hnot : ¬ AnyCovers css shard := by
      rintro ⟨cs, hcs, hcovers⟩
      rw [hempty cs hcs] at hcovers
      exact not_covers_nil hcovers
    simp [Leaves, hnot]

end Merging

end Disjunction

end Merge

end ShardedSearch
