import Mathlib.Logic.Relation
import ShardedSearch.Proofs.Merge.Lockstep
import ShardedSearch.Proofs.Shard

/-! # Order of candidates

What comes into view behind a candidate, whatever steps a stream takes. If a relation holds
from each candidate of the leaves to those behind it and goes along with the way merges
choose their shards, it holds from each candidate of a tree to those behind it.
-/

namespace ShardedSearch.Merge

open Relation (ReflTransGen)

/-- A relation that merges keep between a shard and those behind it, for certain shards. -/
structure Spacing (L : ShardId → Prop) (R : ShardId → ShardId → Prop) : Prop where
  trans : ∀ {a b c}, L a → L b → L c → R a b → R b c → R a c
  /-- A shard may be followed by a higher one that it does not cover. -/
  above : ∀ {a b}, L a → L b → a < b → Shard.covers a b = false → R a b
  /-- What follows a shard of a day follows the day, unless it is of that day, too. -/
  day : ∀ {a b c}, L a → L b → L c → Shard.covers a b = true → R b c →
    Shard.covers a c = false → R a c
  /-- What may be followed by a day may be followed by its shards. -/
  shard : ∀ {a b c}, L a → L b → L c → R a b → Shard.covers b c = true → R a c

theorem spacing_lt : Spacing (fun _ => True) (· < ·) where
  trans _ _ _ := String.lt_trans
  above _ _ hab _ := hab
  day _ _ _ hcov hbc _ := String.lt_trans (Shard.lt_of_covers hcov) hbc
  shard _ _ _ hab hcov := String.lt_trans hab (Shard.lt_of_covers hcov)

variable {σ : Type} {ops : StreamOps σ} {W : σ → Prop} {s t u : σ} {ss ts : List σ}
variable {L P Q : ShardId → Prop} {R : ShardId → ShardId → Prop} {c : Candidate}
variable {id shard target : ShardId} {n : Nat}

inductive Step (ops : StreamOps σ) (s : σ) : σ → Prop where
  | advance : Step ops s (ops.advance s).value.2
  | seek (id : ShardId) : Step ops s (ops.seek id s).value

def Reaches (ops : StreamOps σ) : σ → σ → Prop := ReflTransGen (Step ops)

def Confined (ops : StreamOps σ) (P : ShardId → Prop) (s : σ) : Prop :=
  ∀ t, Reaches ops s t → ∀ c ∈ ops.head t, P c.shard

/-- Whatever comes into view is followed by what may follow it. -/
def Spaced (ops : StreamOps σ) (L : ShardId → Prop) (R : ShardId → ShardId → Prop) (s : σ) :
    Prop :=
  ∀ t, Reaches ops s t → ∀ c ∈ ops.head t, L c.shard ∧
    ∀ u, Step ops t u → u = t ∨ Confined ops (R c.shard) u

theorem moves_reaches (ops : StreamOps σ) : Moves ops (Reaches ops) where
  refl _ := .refl
  trans _ _ _ := .trans
  advance _ := .single .advance
  seek id _ := .single (.seek id)

theorem Confined.head (h : Confined ops P s) (hc : c ∈ ops.head s) : P c.shard := h s .refl c hc

theorem Confined.reaches (h : Confined ops P s) (ht : Reaches ops s t) : Confined ops P t :=
  fun _ hu => h _ (ht.trans hu)

theorem Spaced.reaches (h : Spaced ops L R s) (ht : Reaches ops s t) : Spaced ops L R t :=
  fun _ hu => h _ (ht.trans hu)

theorem Spaced.head (h : Spaced ops L R s) (hc : c ∈ ops.head s) : L c.shard :=
  (h s .refl c hc).1

theorem confined_true : Confined ops (fun _ => True) s := fun _ _ _ _ => trivial

theorem of_reaches {I : σ → Prop} (hstep : ∀ s t, I s → Step ops s t → I t) (hs : I s)
    (ht : Reaches ops s t) : I t := by
  induction ht with
  | refl => exact hs
  | tail _ h ih => exact hstep _ _ ih h

section Settled

variable (hd : Diminishing ops W)
include hd

theorem settled_of_step (hs : W s) (h : Step ops s t) : W t := by
  cases h with
  | advance => exact hd.keeps_advance hs
  | seek id => exact hd.keeps_seek id hs

theorem settled_of_reaches (hs : W s) (h : Reaches ops s t) : W t :=
  of_reaches (fun _ _ => settled_of_step hd) hs h

theorem eq_of_reaches (hs : W s) (hc : ops.head s = none) (h : Reaches ops s t) : t = s := by
  refine of_reaches (I := fun t => t = s) (fun t u ht hu => ?_) rfl h
  subst ht
  cases hu with
  | advance => rw [hd.advance_of_none hs hc]; rfl
  | seek id =>
    rw [hd.seek_of_not_precedes hs fun c h => by rw [hc] at h; cases h]
    rfl

theorem confined_of_head_eq_none (hs : W s) (hc : ops.head s = none) : Confined ops P s := by
  intro t ht c h
  rw [eq_of_reaches hd hs hc ht, hc] at h
  cases h

omit hd in
theorem confined_of_head (hs : Spaced ops L R s) (hc : c ∈ ops.head s) (hP : P c.shard)
    (hR : ∀ id, L id → R c.shard id → P id) : Confined ops P s := by
  intro t ht
  refine (of_reaches (I := fun t => t = s ∨ Spaced ops L R t ∧ Confined ops (R c.shard) t)
    (fun t u htu hu => ?_) (.inl rfl) ht).elim ?_ fun h b hb => ?_
  · rcases htu with rfl | h
    · rcases (hs t .refl c hc).2 u hu with rfl | h
      · exact .inl rfl
      · exact .inr ⟨hs.reaches (.single hu), h⟩
    · exact .inr ⟨h.1.reaches (.single hu), h.2.reaches (.single hu)⟩
  · rintro rfl b hb
    obtain rfl : c = b := Option.some.inj (hc.symm.trans hb)
    exact hP
  · exact hR _ (h.1.head hb) (h.2.head hb)

theorem confined_advance (hs : W s) (hsp : Spaced ops L R s) (hc : c ∈ ops.head s) :
    Confined ops (R c.shard) (ops.advance s).value.2 := by
  rcases (hsp s .refl c hc).2 _ .advance with heq | hbehind
  · have := hd.remaining_advance hs c hc
    rw [heq] at this
    exact absurd this (Nat.lt_irrefl _)
  · exact hbehind

end Settled

structure Track (ops : StreamOps σ) (W : σ → Prop) (L : ShardId → Prop)
    (R : ShardId → ShardId → Prop) (P : ShardId → Prop) (s : σ) : Prop where
  settled : W s
  spaced : Spaced ops L R s
  confined : Confined ops P s

theorem Track.reaches (hd : Diminishing ops W) (h : Track ops W L R P s)
    (ht : Reaches ops s t) : Track ops W L R P t :=
  ⟨settled_of_reaches hd h.settled ht, h.spaced.reaches ht, h.confined.reaches ht⟩

theorem Track.confine (h : Track ops W L R P s) (hQ : Confined ops Q s) :
    Track ops W L R Q s := { h with confined := hQ }

theorem track_of_forall₂ (hd : Diminishing ops W) (hm : List.Forall₂ (Reaches ops) ss ts)
    (hs : ∀ s ∈ ss, Track ops W L R P s) : ∀ t ∈ ts, Track ops W L R P t :=
  mem_of_forall₂ hm fun s h _ ht => (hs s h).reaches hd ht

/-! ### Disjunctions -/

namespace Disjunction

variable {d : Disjunction σ} (hd : Diminishing ops W) (hR : Spacing L R)

/-- The streams of a disjunction only have what may follow the candidate in view. -/
structure Track (ops : StreamOps σ) (W : σ → Prop) (L : ShardId → Prop)
    (R : ShardId → ShardId → Prop) (P : ShardId → Prop) (d : Disjunction σ) : Prop where
  children : ∀ s ∈ d.children, Merge.Track ops W L R P s
  head : ∀ c ∈ d.head, L c.shard ∧ P c.shard ∧ ∀ s ∈ d.children, Confined ops (R c.shard) s

omit hd hR in
/-- A step takes or passes the candidate in view, or changes nothing. -/
theorem step_cases {e : Disjunction σ}
    (h : e = (d.advance ops).value.2 ∨ ∃ id, e = (d.seek ops id).value) :
    e = d ∨ ∃ c ∈ d.head, ∃ ss, List.Forall₂ (Reaches ops) d.children ss ∧
      e = (refill ops { d with children := ss }).value := by
  rcases h with rfl | ⟨id, rfl⟩
  · unfold advance
    split
    · next c hc =>
      exact .inr ⟨c, hc, d.children, forall₂_refl (moves_reaches ops).refl d.children, rfl⟩
    · exact .inl rfl
  · unfold seek
    split
    · next hp =>
      cases hc : d.head with
      | none => rw [hc] at hp; cases hp
      | some c => exact .inr ⟨c, rfl, _, (moves_reaches ops).mapM_seek id d.children, rfl⟩
    · exact .inl rfl

include hd hR

theorem confined_takeFrom (hL : L shard) (hs : W s) (hsp : Spaced ops L R s)
    (hmin : ∀ c ∈ ops.head s, ¬ c.shard < shard)
    (hn : 0 < n) (hday : Shard.isDay shard = true → ops.remaining s ≤ n) :
    Confined ops (R shard) (takeFrom ops shard n s).value.2 := by
  have hreach := takeFrom_moves (moves_reaches ops) shard n s
  obtain ⟨n, rfl⟩ := Nat.exists_eq_succ_of_ne_zero (Nat.pos_iff_ne_zero.mp hn)
  cases hc : ops.head s with
  | none =>
    rw [eq_of_reaches hd hs hc hreach]
    exact confined_of_head_eq_none hd hs hc
  | some c =>
    have htake : c.shard = shard ∨ Shard.covers shard c.shard = true →
        (takeFrom ops shard (n + 1) s).value.2 =
          (takeFrom ops shard n (ops.advance s).value.2).value.2 := by
      intro hat
      rw [takeFrom, hc]
      dsimp only
      rw [if_pos hat]
      rfl
    have hbehind := confined_advance hd hs hsp hc
    by_cases hat : c.shard = shard
    · rw [htake (.inl hat), ← hat]
      exact hbehind.reaches (takeFrom_moves (moves_reaches ops) c.shard n _)
    by_cases hcov : Shard.covers shard c.shard = true
    · -- the stream is left at the first shard that is not of the day
      have hend := @head_takeFrom σ ops W s shard _ hd hs (hday (Shard.covers_iff.mp hcov).1)
      have hrest : Confined ops (R c.shard) (takeFrom ops shard (n + 1) s).value.2 := by
        rw [htake (.inr hcov)]
        exact hbehind.reaches (takeFrom_moves (moves_reaches ops) shard n _)
      have hspaced := hsp.reaches hreach
      cases hb : ops.head (takeFrom ops shard (n + 1) s).value.2 with
      | none => exact confined_of_head_eq_none hd (settled_of_reaches hd hs hreach) hb
      | some b =>
        have hLb := hspaced.head hb
        have hnot := Bool.eq_false_iff.mpr fun h => hend b hb (.inr h)
        have hab := hR.day hL (hsp.head hc) hLb hcov (hrest.head hb) hnot
        exact confined_of_head hspaced hb hab fun id hid hbid => hR.trans hL hLb hid hab hbid
    · have hself : (takeFrom ops shard (n + 1) s).value.2 = s := by
        rw [takeFrom, hc]
        dsimp only
        rw [if_neg (not_or.mpr ⟨hat, hcov⟩)]
        rfl
      have hlt := KeyOrder.lt_of_not_lt (hmin c hc) hat
      have habove := hR.above hL (hsp.head hc) hlt (Bool.eq_false_iff.mpr hcov)
      rw [hself]
      exact confined_of_head hsp hc habove fun id hid hcid =>
        hR.trans hL (hsp.head hc) hid habove hcid

theorem confined_takeAll (hL : L shard) (hs : ∀ s ∈ ss, W s) (hsp : ∀ s ∈ ss, Spaced ops L R s)
    (hmin : ∀ s ∈ ss, ∀ c ∈ ops.head s, ¬ c.shard < shard) :
    ∀ t ∈ (takeAll ops shard ss).value.2, Confined ops (R shard) t := by
  induction ss with
  | nil => exact fun t ht => absurd ht List.not_mem_nil
  | cons s ss ih =>
    obtain ⟨hs, hss⟩ := List.forall_mem_cons.mp hs
    obtain ⟨hsp, hsps⟩ := List.forall_mem_cons.mp hsp
    obtain ⟨hmin, hmins⟩ := List.forall_mem_cons.mp hmin
    refine List.forall_mem_cons.mpr ⟨?_, ih hss hsps hmins⟩
    cases hc : ops.head s with
    | none =>
      have hreach := takeFrom_moves (moves_reaches ops) shard
        (if Shard.isDay shard then ops.remaining s else 1) s
      rw [eq_of_reaches hd hs hc hreach]
      exact confined_of_head_eq_none hd hs hc
    | some c =>
      have hpos := Nat.zero_lt_of_lt (hd.remaining_advance hs c hc)
      refine confined_takeFrom hd hR hL hs hsp hmin ?_ fun hday => ?_
      · split
        · exact hpos
        · exact Nat.one_pos
      · rw [if_pos hday]

theorem track_refill (h : ∀ s ∈ d.children, Merge.Track ops W L R P s) :
    Track ops W L R P (d.refill ops).value := by
  unfold refill
  split
  · next shard hl =>
    obtain ⟨⟨s, hs, c, hc, rfl⟩, hmin⟩ := exists_mem_of_lowest? hl
    have hL := (h s hs).spaced.head hc
    have hP := (h s hs).confined.head hc
    have hchildren := track_of_forall₂ hd (takeAll_moves (moves_reaches ops) c.shard d.children) h
    refine ⟨hchildren, fun b hb => ?_⟩
    obtain rfl := Option.some.inj hb
    refine ⟨hL, hP, ?_⟩
    exact confined_takeAll hd hR hL (fun s hs => (h s hs).settled) (fun s hs => (h s hs).spaced)
      hmin
  · exact ⟨h, fun c hc => by cases hc⟩

/-- A step leaves what it had, and only what may follow what was in view. -/
theorem track_step {e : Disjunction σ} (h : Track ops W L R P d)
    (hstep : e = (d.advance ops).value.2 ∨ ∃ id, e = (d.seek ops id).value) :
    e = d ∨ Track ops W L R P e ∧ ∀ c ∈ d.head, Track ops W L R (R c.shard) e := by
  rcases step_cases hstep with rfl | ⟨c, hc, ss, hss, rfl⟩
  · exact .inl rfl
  · have hchildren := track_of_forall₂ hd hss h.children
    refine .inr ⟨track_refill hd hR hchildren, fun b hb => track_refill hd hR ?_⟩
    refine mem_of_forall₂ hss fun s hs t hst => ?_
    have hbehind := (h.children s hs).confine ((h.head b hb).2.2 s hs)
    exact hbehind.reaches hd hst

end Disjunction

/-! ### Conjunctions -/

namespace Conjunction

variable {i j k : Conjunction σ} {again : Bool} {children : List σ}

/-- Spaced streams of which one is confined, if there are any. -/
structure Tracks (ops : StreamOps σ) (W : σ → Prop) (L : ShardId → Prop)
    (R : ShardId → ShardId → Prop) (P : ShardId → Prop) (ss : List σ) : Prop where
  each : ∀ s ∈ ss, Merge.Track ops W L R (fun _ => True) s
  confined : ss = [] ∨ ∃ s ∈ ss, Confined ops P s

structure Track (ops : StreamOps σ) (W : σ → Prop) (L : ShardId → Prop)
    (R : ShardId → ShardId → Prop) (P : ShardId → Prop) (j : Conjunction σ) : Prop where
  children : Tracks ops W L R P j.children
  head : ∀ c ∈ j.head, L c.shard ∧ P c.shard ∧ ∃ s ∈ j.children, Confined ops (R c.shard) s

theorem step_cases (h : k = (j.advance ops).value.2 ∨ ∃ id, k = (j.seek ops id).value) :
    k = j ∨ ∃ c ∈ j.head, ∃ ss, List.Forall₂ (Reaches ops) j.children ss ∧
      k = (refill ops { j with children := ss }).value := by
  rcases h with rfl | ⟨id, rfl⟩
  · unfold advance
    split
    · next c hc =>
      exact .inr ⟨c, hc, j.children, forall₂_refl (moves_reaches ops).refl j.children, rfl⟩
    · exact .inl rfl
  · unfold seek
    split
    · next hp =>
      cases hc : j.head with
      | none => rw [hc] at hp; cases hp
      | some c =>
        refine .inr ⟨c, rfl, _, (moves_reaches ops).mapM_seek id j.children, ?_⟩
        rw [← hc]
        rfl
    · exact .inl rfl

theorem exists_confined_of_forall₂ (hm : List.Forall₂ (Reaches ops) ss ts)
    (h : ∃ s ∈ ss, Confined ops P s) : ∃ t ∈ ts, Confined ops P t := by
  induction hm with
  | nil => simp at h
  | cons hst _ ih =>
    obtain ⟨u, hu, hc⟩ := h
    rcases List.mem_cons.mp hu with rfl | hu
    · exact ⟨_, List.mem_cons_self, hc.reaches hst⟩
    · obtain ⟨t, ht, hc⟩ := ih ⟨u, hu, hc⟩
      exact ⟨t, List.mem_cons_of_mem _ ht, hc⟩

section Refilling

variable (hd : Diminishing ops W)
include hd

theorem Tracks.moves (h : Tracks ops W L R P ss) (hm : List.Forall₂ (Reaches ops) ss ts) :
    Tracks ops W L R P ts := by
  refine ⟨track_of_forall₂ hd hm h.each, ?_⟩
  rcases h.confined with rfl | hc
  · cases hm
    exact .inl rfl
  · exact .inr (exists_confined_of_forall₂ hm hc)

theorem confined_takeAll (hs : ∀ s ∈ ss, W s) (hsp : ∀ s ∈ ss, Spaced ops L R s)
    (hat : ∃ s ∈ ss, ∃ c ∈ ops.head s, c.shard = target) :
    ∃ t ∈ (takeAll ops target ss).value.2, Confined ops (R target) t := by
  induction ss with
  | nil => simp at hat
  | cons s ss ih =>
    obtain ⟨hs, hss⟩ := List.forall_mem_cons.mp hs
    obtain ⟨hsp, hsps⟩ := List.forall_mem_cons.mp hsp
    rw [takeAll_cons]
    obtain ⟨t, ht, c, hc, rfl⟩ := hat
    rcases List.mem_cons.mp ht with rfl | ht
    · refine ⟨_, List.mem_cons_self, ?_⟩
      rw [Option.mem_def.mp hc, Option.any_some, if_pos (by simp)]
      exact confined_advance hd hs hsp hc
    · obtain ⟨u, hu, hcu⟩ := ih hss hsps ⟨t, ht, c, hc, rfl⟩
      exact ⟨u, List.mem_cons_of_mem _ hu, hcu⟩

variable (hP : ∀ {a b}, L a → L b → P a → Shard.covers a b = true → P b)
include hP

theorem track_round (h : Tracks ops W L R P j.children) (hr : Round ops j false k) :
    Track ops W L R P k := by
  have hchildren := h.moves hd (hr.moves (moves_reaches ops))
  cases hr with
  | exhausted => exact ⟨hchildren, fun c hc => by cases hc⟩
  | ended => exact ⟨hchildren, fun c hc => by cases hc⟩
  | @found target children e hb hal =>
    refine ⟨hchildren, fun b hb' => ?_⟩
    obtain rfl := Option.some.inj hb'
    obtain ⟨rfl, hall⟩ := align_eq_true hal
    have hat := (exists_mem_of_target hb).1
    have hL : L target := by
      obtain ⟨s, hs, c, hc, rfl⟩ := hat
      exact (h.each s hs).spaced.head hc
    have hPt : P target := by
      rcases h.confined with hnil | ⟨s, hs, hcs⟩
      · obtain ⟨s, hs, -⟩ := hat
        rw [hnil] at hs
        cases hs
      · obtain ⟨c, hc, heq | hcov⟩ := hall s hs
        · exact heq ▸ hcs.head hc
        · exact hP ((h.each s hs).spaced.head hc) hL (hcs.head hc) hcov
    refine ⟨hL, hPt, ?_⟩
    exact confined_takeAll hd (fun s hs => (h.each s hs).settled)
      (fun s hs => (h.each s hs).spaced) hat

theorem track_refill (h : Tracks ops W L R P j.children) :
    Track ops W L R P (j.refill ops).value := by
  refine refillWithin_induction (P := fun k => Tracks ops W L R P k.children)
    (Q := fun k => Track ops W L R P k) ?_ ?_ ?_ _ h
  · exact fun k hk => ⟨hk, fun c hc => by cases hc⟩
  · exact fun k l hk hr => hk.moves hd (hr.moves (moves_reaches ops))
  · exact fun k l hk hr => track_round hd hP hk hr

theorem track_step (hR : Spacing L R) (h : Track ops W L R P j)
    (hstep : k = (j.advance ops).value.2 ∨ ∃ id, k = (j.seek ops id).value) :
    k = j ∨ Track ops W L R P k ∧ ∀ c ∈ j.head, Track ops W L R (R c.shard) k := by
  rcases step_cases hstep with rfl | ⟨c, hc, ss, hss, rfl⟩
  · exact .inl rfl
  · refine .inr ⟨track_refill hd hP (h.children.moves hd hss), fun b hb => ?_⟩
    obtain ⟨hL, -, hbehind⟩ := h.head b hb
    have htracks : Tracks ops W L R (R b.shard) j.children := ⟨h.children.each, .inr hbehind⟩
    exact track_refill hd (hR.shard hL) (htracks.moves hd hss)

end Refilling

end Conjunction

/-! ### Leaves -/

namespace Leaf

variable {l m : Leaf}

def shardsFrom (p : Option Candidate × Source) : List ShardId :=
  p.1.elim [] fun c => c.shard :: p.2.items.map (·.2.shard)

def shards (l : Leaf) : List ShardId :=
  match l.state with
  | .present head rest => shardsFrom (head, rest)
  | _ => []

theorem shards_of_head {rest : Source} (hs : l.state = .present (some c) rest) :
    l.shards = c.shard :: rest.items.map (·.2.shard) := by
  rw [shards, hs]
  rfl

theorem shardsFrom_pull (source : Source) :
    shardsFrom source.pull.value = source.items.map (·.2.shard) := by
  match source with
  | ⟨[], _⟩ => rfl
  | ⟨_ :: _, _⟩ => rfl

theorem shardsFrom_skipTo (ending : Option PlanError) (c : Candidate)
    (items : List (Option PlanError × Candidate)) (hp : Shard.precedes c.shard shard = true) :
    shardsFrom (Source.skipTo shard ending c items).value <:+ items.map (·.2.shard) := by
  induction items generalizing c with
  | nil =>
    rw [Source.skipTo, if_pos hp]
    exact List.suffix_refl _
  | cons e items ih =>
    rw [Source.skipTo, if_pos hp]
    change shardsFrom (Source.skipTo shard ending e.2 items).value <:+
      e.2.shard :: items.map (·.2.shard)
    cases he : Shard.precedes e.2.shard shard with
    | true => exact (ih e.2 he).trans (List.suffix_cons _ _)
    | false =>
      unfold Source.skipTo
      rw [he]
      exact List.suffix_refl _

/-- A step leaves a leaf as it is, or only what is behind the candidate in view. -/
theorem shards_of_step (hl : l.Settled)
    (h : m = l.advance.value.2 ∨ ∃ id, m = (l.seek id).value) :
    m = l ∨ ∃ c, l.head = some c ∧ ∃ ids, l.shards = c.shard :: ids ∧ m.shards <:+ ids := by
  cases hc : l.head with
  | none =>
    rw [advance_of_head_eq_none hl hc] at h
    refine .inl ?_
    rcases h with h | ⟨id, h⟩
    · exact h
    · rwa [seek_of_head_eq_none hl hc] at h
  | some c =>
    obtain ⟨rest, hs⟩ := head_eq_some_iff.mp hc
    rcases h with rfl | ⟨id, rfl⟩
    · refine .inr ⟨c, rfl, _, shards_of_head hs, ?_⟩
      rw [advance_of_head hs]
      exact shardsFrom_pull rest ▸ List.suffix_refl _
    · cases hp : Shard.precedes c.shard id with
      | true =>
        refine .inr ⟨c, rfl, _, shards_of_head hs, ?_⟩
        rw [seek_of_head hs]
        exact shardsFrom_skipTo rest.ending c rest.items hp
      | false =>
        refine .inl ?_
        rw [seek_of_not_precedes hl fun b hb => ?_]
        · rfl
        · obtain rfl : c = b := Option.some.inj (hc.symm.trans hb)
          exact hp

end Leaf

/-! ### Trees -/

/-- A property of streams that tells what comes into view, and is handed on with what may
follow each candidate. -/
theorem spaced_of_invariant {I : (ShardId → Prop) → σ → Prop}
    (hhead : ∀ P s, I P s → ∀ c ∈ ops.head s, L c.shard ∧ P c.shard)
    (hstep : ∀ P s t, I P s → Step ops s t →
      t = s ∨ I P t ∧ ∀ c ∈ ops.head s, I (R c.shard) t) (h : I P s) : Spaced ops L R s := by
  have hkeep : ∀ {Q u}, I Q u → ∀ {t}, Reaches ops u t → I Q t := fun {Q u} hu {t} ht => by
    refine of_reaches (I := I Q) (fun v w hv hw => ?_) hu ht
    rcases hstep Q v w hv hw with rfl | ⟨hw, -⟩
    · exact hv
    · exact hw
  refine fun t ht c hc => ⟨(hhead P t (hkeep h ht) c hc).1, fun u hu => ?_⟩
  rcases hstep P t u (hkeep h ht) hu with rfl | ⟨-, hbehind⟩
  · exact .inl rfl
  · exact .inr fun v hv b hb => (hhead _ v (hkeep (hbehind c hc) hv) b hb).2

namespace Stream

variable {ops : StreamOps Stream} {s t : Stream} {k : Nat}

theorem leaf_step {l : Leaf} (h : Step (opsOver ops) (.leaf l) s) :
    ∃ m, s = .leaf m ∧ (m = l.advance.value.2 ∨ ∃ id, m = (l.seek id).value) := by
  cases h with
  | advance => exact ⟨_, rfl, .inl rfl⟩
  | seek id => exact ⟨_, rfl, .inr ⟨id, rfl⟩⟩

theorem disjunction_step {d : Disjunction Stream} (h : Step (opsOver ops) (.disjunction d) s) :
    ∃ e, s = .disjunction e ∧
      (e = (d.advance ops).value.2 ∨ ∃ id, e = (d.seek ops id).value) := by
  cases h with
  | advance => exact ⟨_, rfl, .inl rfl⟩
  | seek id => exact ⟨_, rfl, .inr ⟨id, rfl⟩⟩

theorem conjunction_step {j : Conjunction Stream} (h : Step (opsOver ops) (.conjunction j) s) :
    ∃ k, s = .conjunction k ∧
      (k = (j.advance ops).value.2 ∨ ∃ id, k = (j.seek ops id).value) := by
  cases h with
  | advance => exact ⟨_, rfl, .inl rfl⟩
  | seek id => exact ⟨_, rfl, .inr ⟨id, rfl⟩⟩

/-- A tree that only has shards with a property, in order: what its operations keep. -/
def Track (k : Nat) (L : ShardId → Prop) (R : ShardId → ShardId → Prop) (P : ShardId → Prop) :
    Stream → Prop
  | leaf l => (∀ id ∈ l.shards, L id ∧ P id) ∧ l.shards.Pairwise R
  | disjunction d => Disjunction.Track (opsWithin k) (Settled k) L R P d
  | conjunction j =>
    (∀ {a b}, L a → L b → P a → Shard.covers a b = true → P b) ∧
      Conjunction.Track (opsWithin k) (Settled k) L R P j

structure Held (k : Nat) (L : ShardId → Prop) (R : ShardId → ShardId → Prop)
    (P : ShardId → Prop) (s : Stream) : Prop where
  settled : Settled (k + 1) s
  track : Track k L R P s

theorem Track.head {c : Candidate} (h : Track k L R P s) (hc : c ∈ s.head) :
    L c.shard ∧ P c.shard := by
  cases s with
  | leaf l =>
    obtain ⟨rest, hs⟩ := Leaf.head_eq_some_iff.mp (Option.mem_def.mp hc)
    exact h.1 _ (Leaf.shards_of_head hs ▸ List.mem_cons_self)
  | disjunction d =>
    obtain ⟨hL, hP, -⟩ := Disjunction.Track.head h c hc
    exact ⟨hL, hP⟩
  | conjunction j =>
    obtain ⟨hL, hP, -⟩ := h.2.head c hc
    exact ⟨hL, hP⟩

section Steps

variable (hR : Spacing L R)
include hR

theorem Track.step (h : Track k L R P s) (hs : Settled (k + 1) s)
    (hstep : Step (opsWithin (k + 1)) s t) :
    t = s ∨ Track k L R P t ∧ ∀ c ∈ s.head, Track k L R (R c.shard) t := by
  cases s with
  | leaf l =>
    obtain ⟨m, rfl, hm⟩ := leaf_step hstep
    rcases Leaf.shards_of_step hs hm with rfl | ⟨c, hc, ids, hids, hsuffix⟩
    · exact .inl rfl
    · obtain ⟨hPl, hRl⟩ := h
      rw [hids] at hPl hRl
      obtain ⟨hRc, hRids⟩ := List.pairwise_cons.mp hRl
      have hRm := hRids.sublist hsuffix.sublist
      have hPm : ∀ id ∈ m.shards, L id ∧ P id := fun id hid =>
        hPl id (List.mem_cons_of_mem _ (hsuffix.subset hid))
      refine .inr ⟨⟨hPm, hRm⟩, fun b hb => ⟨fun id hid => ⟨(hPm id hid).1, ?_⟩, hRm⟩⟩
      obtain rfl : c = b := Option.some.inj (hc.symm.trans hb)
      exact hRc id (hsuffix.subset hid)
  | disjunction d =>
    obtain ⟨e, rfl, he⟩ := disjunction_step hstep
    rcases Disjunction.track_step (diminishing k) hR h he with rfl | hkept
    · exact .inl rfl
    · exact .inr hkept
  | conjunction j =>
    obtain ⟨i, rfl, hi⟩ := conjunction_step hstep
    obtain ⟨hP, hj⟩ := h
    rcases Conjunction.track_step (diminishing k) hP hR hj hi with rfl | ⟨hself, hbehind⟩
    · exact .inl rfl
    · exact .inr ⟨⟨hP, hself⟩, fun c hc => ⟨hR.shard (hj.head c hc).1, hbehind c hc⟩⟩

theorem Held.step (h : Held k L R P s) (hstep : Step (opsWithin (k + 1)) s t) :
    t = s ∨ Held k L R P t ∧ ∀ c ∈ s.head, Held k L R (R c.shard) t := by
  have ht := settled_of_step (diminishing (k + 1)) h.settled hstep
  rcases h.track.step hR h.settled hstep with rfl | ⟨hself, hbehind⟩
  · exact .inl rfl
  · exact .inr ⟨⟨ht, hself⟩, fun c hc => ⟨ht, hbehind c hc⟩⟩

theorem Held.spaced (h : Held k L R P s) : Spaced (opsWithin (k + 1)) L R s :=
  spaced_of_invariant (fun _ _ hs _ hc => hs.track.head hc) (fun _ _ _ hs => hs.step hR) h

end Steps

/-! ### Made trees -/

/-- A tree that has been looked up and has its candidates in order, from some level of
operations on. -/
def Ordered (L : ShardId → Prop) (R : ShardId → ShardId → Prop) (s : Stream) : Prop :=
  ∃ k, ∀ n, k ≤ n → Held n L R (fun _ => True) s

theorem ordered_leaf {l : Leaf} (hl : l.Settled)
    (h : (∀ id ∈ l.shards, L id) ∧ l.shards.Pairwise R) : (Stream.leaf l).Ordered L R :=
  ⟨0, fun _ _ => ⟨hl, fun id hid => ⟨h.1 id hid, trivial⟩, h.2⟩⟩

section Making

variable {ss : List Stream} (hR : Spacing L R)
include hR

theorem Ordered.exists_track (h : s.Ordered L R) :
    ∃ k, ∀ n, k ≤ n → Merge.Track (opsWithin n) (Settled n) L R (fun _ => True) s := by
  obtain ⟨k, hk⟩ := h
  refine ⟨k + 1, fun n hn => ?_⟩
  obtain ⟨n, rfl⟩ := Nat.exists_eq_succ_of_ne_zero (by omega : n ≠ 0)
  have hheld := hk n (Nat.le_of_succ_le_succ hn)
  exact ⟨hheld.settled, hheld.spaced hR, confined_true⟩

theorem exists_level (h : ∀ s ∈ ss, s.Ordered L R) :
    ∃ k, heightOfAll ss ≤ k ∧ ∀ n, k ≤ n → ∀ s ∈ ss,
      Merge.Track (opsWithin n) (Settled n) L R (fun _ => True) s := by
  induction ss with
  | nil => exact ⟨0, Nat.le_refl 0, by simp⟩
  | cons s ss ih =>
    obtain ⟨k, hk⟩ := (h s List.mem_cons_self).exists_track hR
    obtain ⟨m, -, hm⟩ := ih fun t ht => h t (List.mem_cons_of_mem s ht)
    refine ⟨max (heightOfAll (s :: ss)) (max k m), Nat.le_max_left .., fun n hn => ?_⟩
    exact List.forall_mem_cons.mpr ⟨hk n (by omega), hm n (by omega)⟩

variable (h : ∀ s ∈ ss, s.Ordered L R)
include h

omit hR in
theorem settled_of_ordered : ∀ s ∈ ss, Settled (heightOfAll ss) s := by
  refine settled_heightOfAll fun s hs => ?_
  obtain ⟨k, hk⟩ := h s hs
  exact ⟨k + 1, (hk k (Nat.le_refl k)).settled⟩

theorem ordered_disjunction {d : Disjunction Stream} (hd : ∀ s ∈ d.children, s ∈ ss) :
    (Stream.disjunction (d.refill (opsFor ss)).value).Ordered L R := by
  obtain ⟨k, hle, hk⟩ := exists_level hR h
  have hds : d.Settled (Settled (heightOfAll ss)) := fun s hs =>
    settled_of_ordered h s (hd s hs)
  refine ⟨k, fun n hn => ?_⟩
  have htrack := Disjunction.track_refill (diminishing n) hR fun s hs => hk n hn s (hd s hs)
  rw [opsFor, disjunction_refill_within hds (Nat.le_refl _) (hle.trans hn)]
  exact ⟨fun s hs => (htrack.children s hs).settled, htrack⟩

theorem ordered_conjunction {j : Conjunction Stream} (hj : ∀ s ∈ j.children, s ∈ ss)
    (ha : ∀ s ∈ j.asked, s ∈ ss) :
    (Stream.conjunction (j.refill (opsFor ss)).value).Ordered L R := by
  obtain ⟨k, hle, hk⟩ := exists_level hR h
  have hjs : j.Settled (Settled (heightOfAll ss)) :=
    ⟨fun s hs => settled_of_ordered h s (hj s hs),
      fun s hs => settled_of_ordered h s (ha s hs)⟩
  refine ⟨k, fun n hn => ?_⟩
  have hall : Conjunction.Tracks (opsWithin n) (Settled n) L R (fun _ => True) j.children := by
    refine ⟨fun s hs => hk n hn s (hj s hs), ?_⟩
    cases hc : j.children with
    | nil => exact .inl rfl
    | cons s ss => exact .inr ⟨s, List.mem_cons_self, confined_true⟩
  have hsettled : j.Settled (Settled n) :=
    ⟨fun s hs => (hk n hn s (hj s hs)).settled, fun s hs => (hk n hn s (ha s hs)).settled⟩
  rw [opsFor, conjunction_refill_within hjs (Nat.le_refl _) (hle.trans hn)]
  exact ⟨Conjunction.settled_refill (diminishing n) hsettled, fun _ _ _ _ => trivial,
    Conjunction.track_refill (diminishing n) (fun _ _ _ _ => trivial) hall⟩

end Making

end Stream

end ShardedSearch.Merge
