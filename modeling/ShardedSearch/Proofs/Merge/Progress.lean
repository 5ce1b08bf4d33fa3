import ShardedSearch.Proofs.Merge.Conjunction
import ShardedSearch.Proofs.Merge.Disjunction
import ShardedSearch.Proofs.Merge.Steps

/-! # Progress of streams

Once a stream is looked up, a step that takes a candidate or passes one leaves fewer of them,
and any other step leaves the stream as it is. The bounds on the loops of merges are
therefore never what ends them.
-/

namespace ShardedSearch.Merge

variable {σ : Type} {ops : StreamOps σ} {W : σ → Prop} {s : σ} {ss ts : List σ}
variable {id shard target : ShardId} {n m : Nat}

namespace Raising

variable {α β : Type}

theorem bind_congr_value {x : Raising α} {f g : α → Raising β} (h : f x.value = g x.value) :
    x >>= f = x >>= g := by
  change (⟨_, _⟩ : Raising β) = ⟨_, _⟩
  rw [h]

end Raising

/-- What steps do to the streams of a kind, and to the number of candidates left. -/
structure Diminishing (ops : StreamOps σ) (W : σ → Prop) : Prop where
  keeps_advance : ∀ {s}, W s → W (ops.advance s).value.2
  keeps_seek : ∀ {s} id, W s → W (ops.seek id s).value
  keeps_answer : ∀ {s} id, W s → W (ops.answer id s).value.2
  taken : ∀ {s}, W s → (ops.advance s).value.1 = ops.head s
  advance_of_none : ∀ {s}, W s → ops.head s = none → ops.advance s = pure (none, s)
  seek_of_not_precedes : ∀ {s id}, W s →
    (∀ c ∈ ops.head s, Shard.precedes c.shard id = false) → ops.seek id s = pure s
  remaining_advance : ∀ {s}, W s → ∀ c ∈ ops.head s,
    ops.remaining (ops.advance s).value.2 < ops.remaining s
  remaining_seek : ∀ {s id}, W s → ∀ c ∈ ops.head s, Shard.precedes c.shard id = true →
    ops.remaining (ops.seek id s).value < ops.remaining s

namespace Diminishing

variable (h : Diminishing ops W)
include h

theorem remaining_seek_le (id : ShardId) (hs : W s) :
    ops.remaining (ops.seek id s).value ≤ ops.remaining s := by
  by_cases hp : ∃ c ∈ ops.head s, Shard.precedes c.shard id = true
  · obtain ⟨c, hc, hlt⟩ := hp
    exact Nat.le_of_lt (h.remaining_seek hs c hc hlt)
  · rw [h.seek_of_not_precedes hs fun c hc => Bool.eq_false_iff.mpr fun hlt => hp ⟨c, hc, hlt⟩]
    exact Nat.le_refl _

theorem remaining_advance_le (hs : W s) :
    ops.remaining (ops.advance s).value.2 ≤ ops.remaining s := by
  cases hc : ops.head s with
  | none =>
    rw [h.advance_of_none hs hc]
    exact Nat.le_refl _
  | some c => exact Nat.le_of_lt (h.remaining_advance hs c hc)

/-- Streams move to streams of their kind, with no more candidates left. -/
theorem moves : Moves ops fun s t => W s → W t ∧ ops.remaining t ≤ ops.remaining s where
  refl _ hs := ⟨hs, Nat.le_refl _⟩
  trans _ _ _ hst htu hs := ⟨(htu (hst hs).1).1, (htu (hst hs).1).2.trans (hst hs).2⟩
  advance _ hs := ⟨h.keeps_advance hs, h.remaining_advance_le hs⟩
  seek id _ hs := ⟨h.keeps_seek id hs, h.remaining_seek_le id hs⟩

theorem asks : Asks ops fun s t => W s → W t where
  refl _ hs := hs
  trans _ _ _ hst htu hs := htu (hst hs)
  answer id _ hs := h.keeps_answer id hs

theorem head_eq_none (hs : W s) (hr : ops.remaining s = 0) : ops.head s = none := by
  cases hc : ops.head s with
  | none => rfl
  | some c =>
    have := h.remaining_advance hs c hc
    omega

end Diminishing

theorem keeps_of_forall₂ {W' : σ → Prop}
    (hm : List.Forall₂ (fun s t => W s → W' t ∧ ops.remaining t ≤ ops.remaining s) ss ts)
    (hs : ∀ s ∈ ss, W s) :
    (∀ t ∈ ts, W' t) ∧ ops.remainingOfAll ts ≤ ops.remainingOfAll ss := by
  induction hm with
  | nil => exact ⟨by simp, Nat.le_refl _⟩
  | cons hst _ ih =>
    obtain ⟨hw, hr⟩ := hst (hs _ List.mem_cons_self)
    obtain ⟨hws, hrs⟩ := ih fun s hs' => hs s (List.mem_cons_of_mem _ hs')
    exact ⟨List.forall_mem_cons.mpr ⟨hw, hws⟩, Nat.add_le_add hr hrs⟩

theorem mem_of_forall₂ {A : σ → σ → Prop} (hm : List.Forall₂ A ss ts) {P : σ → Prop}
    (hs : ∀ s ∈ ss, ∀ t, A s t → P t) : ∀ t ∈ ts, P t := by
  induction hm with
  | nil => simp
  | cons hst _ ih =>
    exact List.forall_mem_cons.mpr ⟨hs _ List.mem_cons_self _ hst,
      ih fun s hs' => hs s (List.mem_cons_of_mem _ hs')⟩

/-! ### Disjunctions -/

namespace Disjunction

variable {d : Disjunction σ} (h : Diminishing ops W)

def Settled (W : σ → Prop) (d : Disjunction σ) : Prop := ∀ s ∈ d.children, W s

include h

theorem takeFrom_eq (hs : W s) (hn : ops.remaining s ≤ n) (hm : ops.remaining s ≤ m) :
    takeFrom ops shard n s = takeFrom ops shard m s := by
  induction n generalizing m s with
  | zero =>
    have hnone := h.head_eq_none hs (Nat.le_zero.mp hn)
    cases m with
    | zero => rfl
    | succ m => simp only [takeFrom, hnone]
  | succ n ih =>
    cases m with
    | zero =>
      have hnone := h.head_eq_none hs (Nat.le_zero.mp hm)
      simp only [takeFrom, hnone]
    | succ m =>
      rw [takeFrom, takeFrom]
      split
      · next c hc =>
        have hlt := h.remaining_advance hs c hc
        split
        · refine Raising.bind_congr_value ?_
          have heq := ih (m := m) (h.keeps_advance hs) (by omega) (by omega)
          dsimp only
          rw [heq]
        · rfl
      · rfl

theorem head_takeFrom (hs : W s) (hn : ops.remaining s ≤ n) :
    ∀ c ∈ ops.head (takeFrom ops shard n s).value.2,
      ¬ (c.shard = shard ∨ Shard.covers shard c.shard = true) := by
  induction n generalizing s with
  | zero =>
    rw [takeFrom, Raising.value_pure, h.head_eq_none hs (Nat.le_zero.mp hn)]
    simp
  | succ n ih =>
    rw [takeFrom]
    split
    · next c hc =>
      have hlt := h.remaining_advance hs c hc
      split
      · have hle : ops.remaining (ops.advance s).value.2 ≤ n := by omega
        exact ih (h.keeps_advance hs) hle
      · next hnot =>
        intro b hb
        rw [Raising.value_pure, hc] at hb
        obtain rfl := Option.some.inj hb
        exact hnot
    · next hc =>
      rw [Raising.value_pure, hc]
      simp

theorem remaining_takeFrom (hs : W s) (hn : 0 < n) {c : Candidate} (hc : c ∈ ops.head s)
    (hat : c.shard = shard) :
    ops.remaining (takeFrom ops shard n s).value.2 < ops.remaining s := by
  obtain ⟨n, rfl⟩ := Nat.exists_eq_succ_of_ne_zero (Nat.pos_iff_ne_zero.mp hn)
  have hlt := h.remaining_advance hs c hc
  have hle := (takeFrom_moves h.moves shard n _ (h.keeps_advance hs)).2
  have htake : (takeFrom ops shard (n + 1) s).value.2 =
      (takeFrom ops shard n (ops.advance s).value.2).value.2 := by
    rw [takeFrom, Option.mem_def.mp hc]
    simp only [hat, true_or, if_true]
    rfl
  rw [Nat.succ_eq_add_one, htake]
  omega

theorem sum_takeAll (hs : ∀ s ∈ ss, W s) (hat : ∃ s ∈ ss, ∃ c ∈ ops.head s, c.shard = shard) :
    ops.remainingOfAll (takeAll ops shard ss).value.2 < ops.remainingOfAll ss := by
  induction ss with
  | nil => simp at hat
  | cons s ss ih =>
    have hW := hs s List.mem_cons_self
    have hWs := fun t ht => hs t (List.mem_cons_of_mem s ht)
    let fuel := if Shard.isDay shard then ops.remaining s else 1
    change ops.remaining (takeFrom ops shard fuel s).value.2 +
      ops.remainingOfAll (takeAll ops shard ss).value.2 <
        ops.remaining s + ops.remainingOfAll ss
    have hle := (keeps_of_forall₂ (takeAll_moves h.moves shard ss) hWs).2
    have hself := (takeFrom_moves h.moves shard fuel s hW).2
    obtain ⟨t, ht, c, hc, hcs⟩ := hat
    rcases List.mem_cons.mp ht with rfl | ht
    · have hpos : 0 < fuel := by
        have := h.remaining_advance hW c hc
        change 0 < if _ then _ else _
        split <;> omega
      have := remaining_takeFrom h hW hpos hc hcs
      omega
    · have := ih hWs ⟨t, ht, c, hc, hcs⟩
      omega

omit h in
theorem exists_mem_of_lowest? (hl : lowest? ops ss = some shard) :
    (∃ s ∈ ss, ∃ c ∈ ops.head s, c.shard = shard) ∧
      ∀ s ∈ ss, ∀ c ∈ ops.head s, ¬ c.shard < shard := by
  obtain ⟨hmem, hmin⟩ := Shard.least_of_min? hl
  refine ⟨?_, fun s hs c hc => hmin _ (List.mem_filterMap.mpr ⟨s, hs, ?_⟩)⟩
  · obtain ⟨s, hs, hm⟩ := List.mem_filterMap.mp hmem
    obtain ⟨c, hc, rfl⟩ := Option.map_eq_some_iff.mp hm
    exact ⟨s, hs, c, hc, rfl⟩
  · rw [Option.mem_def.mp hc]
    rfl

theorem remaining_refill (hd : d.Settled W) :
    (d.refill ops).value.remaining ops ≤ ops.remainingOfAll d.children := by
  unfold refill
  split
  · next hl =>
    have := sum_takeAll h hd (exists_mem_of_lowest? hl).1
    exact this
  · exact Nat.le_refl _

omit h in
theorem fst_advance (d : Disjunction σ) : (d.advance ops).value.1 = d.head := by
  unfold advance
  split <;> next hc => exact hc.symm

omit h in
theorem advance_of_head_eq_none (hc : d.head = none) : d.advance ops = pure (none, d) := by
  rw [advance, hc]

omit h in
theorem seek_of_not_precedes (hp : ∀ c ∈ d.head, Shard.precedes c.shard id = false) :
    d.seek ops id = pure d := by
  have hany : (d.head.any fun c => Shard.precedes c.shard id) = false :=
    (Option.any_eq_false _ _).mpr hp
  rw [seek, if_neg (Bool.eq_false_iff.mp hany)]

omit h in
theorem remaining_of_head {c : Candidate} (hc : d.head = some c) :
    d.remaining ops = ops.remainingOfAll d.children + 1 := by
  rw [remaining, hc]
  rfl

theorem advance_diminishes (hd : d.Settled W) {c : Candidate} (hc : d.head = some c) :
    (d.advance ops).value.2.remaining ops < d.remaining ops := by
  have := remaining_refill h hd
  rw [remaining_of_head hc, advance, hc]
  exact Nat.lt_succ_of_le this

theorem seek_diminishes (hd : d.Settled W) {c : Candidate} (hc : d.head = some c)
    (hp : Shard.precedes c.shard id = true) :
    (d.seek ops id).value.remaining ops < d.remaining ops := by
  have hmoves := keeps_of_forall₂ (h.moves.mapM_seek id d.children) hd
  have := remaining_refill h (d := { d with children := (d.children.mapM (ops.seek id)).value })
    hmoves.1
  rw [remaining_of_head hc, seek, if_pos (by rw [hc]; exact hp)]
  exact Nat.lt_succ_of_le (this.trans hmoves.2)

end Disjunction

/-! ### Conjunctions -/

namespace Conjunction

variable {j k : Conjunction σ} {children : List σ} {again : Bool}

theorem mem_heads? {ids : List ShardId} (hh : heads? ops ss = some ids) :
    (∀ s ∈ ss, ∃ c ∈ ops.head s, c.shard ∈ ids) ∧
      ∀ i ∈ ids, ∃ s ∈ ss, ∃ c ∈ ops.head s, c.shard = i := by
  induction ss generalizing ids with
  | nil =>
    obtain rfl := Option.some.inj hh
    simp
  | cons s ss ih =>
    rw [heads?] at hh
    split at hh
    · next c ids' hc hids =>
      obtain rfl := Option.some.inj hh
      obtain ⟨hall, hmem⟩ := ih hids
      constructor
      · intro t ht
        rcases List.mem_cons.mp ht with rfl | ht
        · exact ⟨c, hc, List.mem_cons_self⟩
        · obtain ⟨b, hb, hm⟩ := hall t ht
          exact ⟨b, hb, List.mem_cons_of_mem _ hm⟩
      · intro i hi
        rcases List.mem_cons.mp hi with rfl | hi
        · exact ⟨s, List.mem_cons_self, c, hc, rfl⟩
        · obtain ⟨t, ht, b, hb, he⟩ := hmem i hi
          exact ⟨t, List.mem_cons_of_mem s ht, b, hb, he⟩
    · cases hh

theorem exists_mem_of_target (hb : (heads? ops ss).bind List.max? = some target) :
    (∃ s ∈ ss, ∃ c ∈ ops.head s, c.shard = target) ∧
      ∀ s ∈ ss, ∃ c ∈ ops.head s, ¬ target < c.shard := by
  obtain ⟨ids, hids, hg⟩ := Option.bind_eq_some_iff.mp hb
  obtain ⟨hall, hmem⟩ := mem_heads? hids
  obtain ⟨hin, hmax⟩ := Shard.greatest_of_max? hg
  refine ⟨hmem target hin, fun s hs => ?_⟩
  obtain ⟨c, hc, hm⟩ := hall s hs
  exact ⟨c, hc, hmax _ hm⟩

theorem align_eq_true (hal : (align ops target ss).value = (some true, children)) :
    children = ss ∧
      ∀ s ∈ ss, ∃ c ∈ ops.head s, c.shard = target ∨ Shard.covers c.shard target = true := by
  induction ss generalizing children with
  | nil =>
    obtain ⟨-, rfl⟩ := Prod.mk.inj hal
    simp
  | cons s ss ih =>
    rw [align] at hal
    split at hal
    · next c hc =>
      split at hal
      · next hat =>
        obtain ⟨hb, rfl⟩ := Prod.mk.inj hal
        obtain ⟨he, hall⟩ := ih (Prod.ext hb rfl)
        exact ⟨congrArg (s :: ·) he, List.forall_mem_cons.mpr ⟨⟨c, hc, hat⟩, hall⟩⟩
      · rw [Raising.value_bind] at hal
        split at hal
        · obtain ⟨hb, -⟩ := Prod.mk.inj hal
          cases hm : (align ops target ss).value.1 <;> simp [hm] at hb
        · cases (Prod.mk.inj hal).1
    · cases (Prod.mk.inj hal).1

variable (h : Diminishing ops W)

def Settled (W : σ → Prop) (j : Conjunction σ) : Prop :=
  (∀ s ∈ j.children, W s) ∧ ∀ s ∈ j.asked, W s

include h

/-- A stream that had to move has passed a candidate. -/
theorem sum_align (hs : ∀ s ∈ ss, W s)
    (hmax : ∀ s ∈ ss, ∃ c ∈ ops.head s, ¬ target < c.shard)
    (hal : (align ops target ss).value = (some false, children)) :
    ops.remainingOfAll children < ops.remainingOfAll ss := by
  induction ss generalizing children with
  | nil => cases hal
  | cons s ss ih =>
    have hWs := fun t ht => hs t (List.mem_cons_of_mem s ht)
    have hle := (keeps_of_forall₂ (align_moves h.moves target ss) hWs).2
    rw [align] at hal
    split at hal
    · next c hc =>
      split at hal
      · obtain ⟨hb, rfl⟩ := Prod.mk.inj hal
        have := ih hWs (fun t ht => hmax t (List.mem_cons_of_mem s ht)) (Prod.ext hb rfl)
        exact Nat.add_lt_add_left this _
      · next hnot =>
        rw [Raising.value_bind] at hal
        have hseek : ops.remaining (ops.seek target s).value < ops.remaining s := by
          obtain ⟨b, hb, hnlt⟩ := hmax s List.mem_cons_self
          obtain rfl : c = b := Option.some.inj (hc.symm.trans hb)
          obtain ⟨hne, hcov⟩ := not_or.mp hnot
          have hlt := KeyOrder.lt_of_not_lt hnlt fun he => hne he.symm
          exact h.remaining_seek (hs s List.mem_cons_self) c hb
            (Shard.precedes_iff.mpr ⟨hlt, by simpa using hcov⟩)
        split at hal
        · obtain ⟨-, rfl⟩ := Prod.mk.inj hal
          exact Nat.add_lt_add_of_lt_of_le hseek hle
        · cases (Prod.mk.inj hal).1
    · cases (Prod.mk.inj hal).1

theorem sum_takeAll (hs : ∀ s ∈ ss, W s) (hat : ∃ s ∈ ss, ∃ c ∈ ops.head s, c.shard = target) :
    ops.remainingOfAll (takeAll ops target ss).value.2 < ops.remainingOfAll ss := by
  induction ss with
  | nil => simp at hat
  | cons s ss ih =>
    have hW := hs s List.mem_cons_self
    have hWs := fun t ht => hs t (List.mem_cons_of_mem s ht)
    have hle := (keeps_of_forall₂ (takeAll_moves h.moves target ss) hWs).2
    rw [takeAll_cons, StreamOps.remainingOfAll_cons, StreamOps.remainingOfAll_cons]
    obtain ⟨t, ht, c, hc, hcs⟩ := hat
    rcases List.mem_cons.mp ht with rfl | ht
    · rw [Option.mem_def.mp hc, Option.any_some, if_pos (by simpa using hcs)]
      exact Nat.add_lt_add_of_lt_of_le (h.remaining_advance hW c hc) hle
    · have := ih hWs ⟨t, ht, c, hc, hcs⟩
      refine Nat.add_lt_add_of_le_of_lt ?_ this
      split
      · exact h.remaining_advance_le hW
      · exact Nat.le_refl _

omit h in
theorem settled_of_forall₂
    (hm : List.Forall₂ (fun s t => W s → W t ∧ ops.remaining t ≤ ops.remaining s)
      j.children k.children)
    (ha : List.Forall₂ (fun s t => W s → W t) j.asked k.asked) (hj : j.Settled W) :
    k.Settled W :=
  ⟨(keeps_of_forall₂ hm hj.1).1, mem_of_forall₂ ha fun s hs _ hst => hst (hj.2 s hs)⟩

theorem Round.settled (hr : Round ops j again k) (hj : j.Settled W) : k.Settled W :=
  settled_of_forall₂ (hr.moves h.moves) (hr.asks h.asks) hj

/-- A round that another one follows leaves fewer candidates, and so does one that finds a
candidate. -/
theorem Round.sum (hr : Round ops j again k) (hj : j.Settled W) :
    ops.remainingOfAll k.children +
      (if again then 1 else k.head.toList.length) ≤
        ops.remainingOfAll j.children := by
  have hle := (keeps_of_forall₂ (hr.moves h.moves) hj.1).2
  have htake : ∀ {target children}, (heads? ops j.children).bind List.max? = some target →
      (align ops target j.children).value = (some true, children) →
      ops.remainingOfAll (takeAll ops target children).value.2 <
        ops.remainingOfAll j.children := by
    intro target children hb hal
    obtain ⟨rfl, -⟩ := align_eq_true hal
    exact sum_takeAll h hj.1 (exists_mem_of_target hb).1
  cases hr with
  | exhausted => exact hle
  | ended => exact hle
  | moved hb hal => exact sum_align h hj.1 (exists_mem_of_target hb).2 hal
  | refused hb hal => exact htake hb hal
  | found _ hb hal => exact htake hb hal

theorem refillWithin_eq (hj : j.Settled W) (hn : ops.remainingOfAll j.children < n)
    (hm : ops.remainingOfAll j.children < m) :
    j.refillWithin ops n = j.refillWithin ops m := by
  induction n generalizing m j with
  | zero => omega
  | succ n ih =>
    obtain ⟨m, rfl⟩ := Nat.exists_eq_succ_of_ne_zero (by omega : m ≠ 0)
    have hround : ∀ {k}, Round ops j true k → k.refillWithin ops n = k.refillWithin ops m := by
      intro k hr
      have := hr.sum h hj
      rw [if_pos rfl] at this
      exact ih (hr.settled h hj) (by omega) (by omega)
    rw [refillWithin, refillWithin]
    split
    · rfl
    · next target hb =>
      refine Raising.bind_congr_value ?_
      cases hal : (align ops target j.children).value with
      | mk aligned children =>
        rcases aligned with _ | _ | _
        · rfl
        · exact hround (.moved hb hal)
        · refine Raising.bind_congr_value (Raising.bind_congr_value ?_)
          dsimp only
          split
          · exact hround (.refused hb hal)
          · split
            · exact hround (.refused hb hal)
            · rfl

theorem settled_refill (hj : j.Settled W) : (j.refill ops).value.Settled W :=
  settled_of_forall₂ (refill_moves h.moves j) (refill_asks h.asks j) hj

theorem remaining_refill (hj : j.Settled W) :
    (j.refill ops).value.remaining ops ≤ ops.remainingOfAll j.children := by
  let bound := ops.remainingOfAll j.children
  refine refillWithin_induction
    (P := fun k => k.Settled W ∧ ops.remainingOfAll k.children ≤ bound)
    (Q := fun k => k.remaining ops ≤ bound) ?_ ?_ ?_ _ ⟨hj, Nat.le_refl _⟩
  · exact fun k hk => hk.2
  · intro k l hk hr
    have := hr.sum h hk.1
    exact ⟨hr.settled h hk.1, by omega⟩
  · intro k l hk hr
    exact (hr.sum h hk.1).trans hk.2

omit h in
theorem fst_advance (j : Conjunction σ) : (j.advance ops).value.1 = j.head := by
  unfold advance
  split <;> next hc => exact hc.symm

omit h in
theorem advance_of_head_eq_none (hc : j.head = none) : j.advance ops = pure (none, j) := by
  rw [advance, hc]

omit h in
theorem seek_of_not_precedes (hp : ∀ c ∈ j.head, Shard.precedes c.shard id = false) :
    j.seek ops id = pure j := by
  have hany : (j.head.any fun c => Shard.precedes c.shard id) = false :=
    (Option.any_eq_false _ _).mpr hp
  rw [seek, if_neg (Bool.eq_false_iff.mp hany)]

omit h in
theorem remaining_of_head {c : Candidate} (hc : j.head = some c) :
    j.remaining ops = ops.remainingOfAll j.children + 1 := by
  rw [remaining, hc]
  rfl

theorem advance_diminishes (hj : j.Settled W) {c : Candidate} (hc : j.head = some c) :
    (j.advance ops).value.2.remaining ops < j.remaining ops := by
  have := remaining_refill h hj
  rw [remaining_of_head hc, advance, hc]
  exact Nat.lt_succ_of_le this

theorem seek_diminishes (hj : j.Settled W) {c : Candidate} (hc : j.head = some c)
    (hp : Shard.precedes c.shard id = true) :
    (j.seek ops id).value.remaining ops < j.remaining ops := by
  have hmoves := keeps_of_forall₂ (h.moves.mapM_seek id j.children) hj.1
  have := remaining_refill h (j := { j with children := (j.children.mapM (ops.seek id)).value })
    ⟨hmoves.1, hj.2⟩
  rw [remaining_of_head hc, seek, if_pos (by rw [hc]; exact hp)]
  exact Nat.lt_succ_of_le (this.trans hmoves.2)

end Conjunction

/-! ### Leaves -/

namespace Source

def sizeFrom (p : Option Candidate × Source) : Nat := p.1.elim 0 fun _ => p.2.items.length + 1

theorem sizeFrom_pull (source : Source) : sizeFrom source.pull.value ≤ source.items.length := by
  match source with
  | ⟨[], _⟩ => exact Nat.le_refl 0
  | ⟨_ :: _, _⟩ => exact Nat.le_refl _

theorem sizeFrom_skipTo (shard : ShardId) (ending : Option PlanError) (c : Candidate)
    (items : List (Option PlanError × Candidate)) :
    sizeFrom (skipTo shard ending c items).value ≤
      items.length + if Shard.precedes c.shard shard then 0 else 1 := by
  induction items generalizing c with
  | nil =>
    rw [skipTo]
    split
    · exact Nat.zero_le _
    · exact Nat.le_refl _
  | cons e items ih =>
    rw [skipTo]
    split
    · refine (ih e.2).trans ?_
      rw [List.length_cons]
      split <;> omega
    · exact Nat.le_refl _

end Source

namespace Leaf

variable {l : Leaf}

def Settled (l : Leaf) : Prop := ∀ lookup, l.state ≠ .pending lookup

theorem resolve_of_settled (hl : l.Settled) : l.resolve = pure l := by
  rw [resolve]
  split
  · next lookup hs => exact absurd hs (hl lookup)
  · rfl

theorem settled_of_present {c? : Option Candidate} {rest : Source}
    (hs : l.state = .present c? rest) : l.Settled := by
  intro lookup he
  rw [hs] at he
  cases he

theorem settled_stateOf (q : Query) (p : Option Candidate × Source) :
    Settled ⟨q, stateOf p⟩ := by
  intro lookup he
  rcases p with ⟨_ | c, rest⟩ <;> cases he

theorem settled_resolve (l : Leaf) : l.resolve.value.Settled := by
  obtain ⟨q, state⟩ := l
  cases state with
  | pending lookup =>
    obtain ⟨raised, result⟩ := lookup
    cases result with
    | ok source => exact settled_stateOf q source.pull.value
    | error e => cases e <;> exact fun _ he => by cases he
  | _ => exact fun _ he => by cases he

theorem head_eq_some_iff {c : Candidate} :
    l.head = some c ↔ ∃ rest, l.state = .present (some c) rest := by
  rw [head]
  cases l.state <;> simp

theorem state_of_head_eq_none (hc : l.head = none) :
    ∀ c rest, l.state ≠ .present (some c) rest := by
  intro c rest hs
  rw [head_eq_some_iff.mpr ⟨rest, hs⟩] at hc
  cases hc

theorem remaining_present {c? : Option Candidate} {rest : Source} {q : Query} :
    remaining ⟨q, .present c? rest⟩ = Source.sizeFrom (c?, rest) := by
  cases c? <;> rfl

theorem advance_of_head {c : Candidate} {rest : Source} (hs : l.state = .present (some c) rest) :
    l.advance = (do
      let (head, rest) ← rest.pull
      pure (some c, { l with state := .present head rest })) := by
  rw [advance, resolve_of_settled (settled_of_present hs), pure_bind, hs]

theorem seek_of_head {c : Candidate} {rest : Source} (hs : l.state = .present (some c) rest) :
    l.seek shard = (do
      let (head, rest) ← Source.skipTo shard rest.ending c rest.items
      pure { l with state := .present head rest }) := by
  rw [seek, resolve_of_settled (settled_of_present hs), pure_bind, hs]

theorem advance_of_head_eq_none (hl : l.Settled) (hc : l.head = none) :
    l.advance = pure (none, l) := by
  rw [advance, resolve_of_settled hl, pure_bind]
  split
  · next c rest hs => exact absurd hs (state_of_head_eq_none hc c rest)
  · rfl

theorem fst_advance (hl : l.Settled) : l.advance.value.1 = l.head := by
  cases hc : l.head with
  | none =>
    rw [advance_of_head_eq_none hl hc]
    rfl
  | some c =>
    obtain ⟨rest, hs⟩ := head_eq_some_iff.mp hc
    rw [advance_of_head hs]
    rfl

theorem seek_of_head_eq_none (hl : l.Settled) (hc : l.head = none) : l.seek shard = pure l := by
  rw [seek, resolve_of_settled hl, pure_bind]
  split
  · next c items ending hs => exact absurd hs (state_of_head_eq_none hc c _)
  · rfl

theorem skipTo_of_not_precedes {c : Candidate} {rest : Source}
    (hp : Shard.precedes c.shard shard = false) :
    Source.skipTo shard rest.ending c rest.items = pure (some c, rest) := by
  unfold Source.skipTo
  rw [hp]
  rfl

theorem settled_seek (hl : l.Settled) (id : ShardId) : (l.seek id).value.Settled := by
  cases hc : l.head with
  | none => rwa [seek_of_head_eq_none hl hc]
  | some c =>
    obtain ⟨rest, hs⟩ := head_eq_some_iff.mp hc
    rw [seek_of_head hs]
    exact settled_of_present rfl

theorem settled_advance (hl : l.Settled) : l.advance.value.2.Settled := by
  cases hc : l.head with
  | none => rwa [advance_of_head_eq_none hl hc]
  | some c =>
    obtain ⟨rest, hs⟩ := head_eq_some_iff.mp hc
    rw [advance_of_head hs]
    exact settled_of_present rfl

theorem seek_of_not_precedes (hl : l.Settled)
    (hp : ∀ c ∈ l.head, Shard.precedes c.shard id = false) : l.seek id = pure l := by
  cases hc : l.head with
  | none => exact seek_of_head_eq_none hl hc
  | some c =>
    obtain ⟨rest, hs⟩ := head_eq_some_iff.mp hc
    rw [seek_of_head hs, skipTo_of_not_precedes (hp c hc), pure_bind]
    dsimp only
    rw [← hs]

theorem remaining_advance {c : Candidate} (hc : c ∈ l.head) :
    l.advance.value.2.remaining < l.remaining := by
  obtain ⟨rest, hs⟩ := head_eq_some_iff.mp hc
  have hself : l.remaining = rest.items.length + 1 := by rw [remaining, hs]
  rw [advance_of_head hs, hself]
  change remaining ⟨l.query, .present rest.pull.value.1 rest.pull.value.2⟩ < _
  rw [remaining_present]
  exact Nat.lt_succ_of_le (Source.sizeFrom_pull rest)

theorem remaining_seek {c : Candidate} (hc : c ∈ l.head)
    (hp : Shard.precedes c.shard id = true) : (l.seek id).value.remaining < l.remaining := by
  obtain ⟨rest, hs⟩ := head_eq_some_iff.mp hc
  have hle := Source.sizeFrom_skipTo id rest.ending c rest.items
  rw [if_pos hp] at hle
  have hself : l.remaining = rest.items.length + 1 := by rw [remaining, hs]
  rw [seek_of_head hs, hself]
  change remaining ⟨l.query, .present (Source.skipTo id rest.ending c rest.items).value.1
    (Source.skipTo id rest.ending c rest.items).value.2⟩ < _
  rw [remaining_present]
  exact Nat.lt_succ_of_le hle

theorem settled_answer {l : Leaf} (hl : l.Settled) (id : ShardId) :
    (l.answer id).value.2.Settled := by
  have hanswer : Settled (answerAt head advance seek id l).value.2 :=
    keeps_answerAt (fun _ => settled_advance) (fun _ h => settled_seek h id) hl
  unfold answer
  split
  · exact hl
  · exact hanswer
  · exact hanswer
  · exact hl

end Leaf

/-! ### Trees -/

namespace Stream

/-- All leaves of a tree of at most the given height have been looked up. -/
def Settled : Nat → Stream → Prop
  | 0, _ => False
  | _ + 1, leaf l => l.Settled
  | n + 1, disjunction d => Disjunction.Settled (Settled n) d
  | n + 1, conjunction j => Conjunction.Settled (Settled n) j

theorem diminishing_opsOver {ops : StreamOps Stream} (h : Diminishing ops (Settled n)) :
    Diminishing (opsOver ops) (Settled (n + 1)) where
  keeps_advance {s} hs := by
    cases s with
    | leaf l => exact Leaf.settled_advance hs
    | disjunction d => exact (keeps_of_forall₂ (Disjunction.advance_moves h.moves d) hs).1
    | conjunction j =>
      exact Conjunction.settled_of_forall₂ (Conjunction.advance_moves h.moves j)
        (Conjunction.advance_asks h.asks j) hs
  keeps_seek {s} id hs := by
    cases s with
    | leaf l => exact Leaf.settled_seek hs id
    | disjunction d => exact (keeps_of_forall₂ (Disjunction.seek_moves h.moves id d) hs).1
    | conjunction j =>
      exact Conjunction.settled_of_forall₂ (Conjunction.seek_moves h.moves id j)
        (Conjunction.seek_asks h.asks id j) hs
  keeps_answer {s} id hs := by
    cases s with
    | leaf l => exact Leaf.settled_answer hs id
    | disjunction d => exact (keeps_of_forall₂ (Disjunction.answer_moves h.moves id d) hs).1
    | conjunction j =>
      exact Conjunction.settled_of_forall₂ (Conjunction.answer_moves h.moves id j)
        (Conjunction.answer_asks h.asks id j) hs
  taken {s} hs := by
    cases s with
    | leaf l => exact Leaf.fst_advance hs
    | disjunction d => exact Disjunction.fst_advance d
    | conjunction j => exact Conjunction.fst_advance j
  advance_of_none {s} hs hc := by
    cases s with
    | leaf l => simp only [opsOver, Leaf.advance_of_head_eq_none hs hc, pure_bind]
    | disjunction d => simp only [opsOver, Disjunction.advance_of_head_eq_none hc, pure_bind]
    | conjunction j => simp only [opsOver, Conjunction.advance_of_head_eq_none hc, pure_bind]
  seek_of_not_precedes {s id} hs hp := by
    cases s with
    | leaf l => simp only [opsOver, Leaf.seek_of_not_precedes hs hp, map_pure]
    | disjunction d => simp only [opsOver, Disjunction.seek_of_not_precedes hp, map_pure]
    | conjunction j => simp only [opsOver, Conjunction.seek_of_not_precedes hp, map_pure]
  remaining_advance {s} hs c hc := by
    cases s with
    | leaf l => exact Leaf.remaining_advance hc
    | disjunction d => exact Disjunction.advance_diminishes h hs hc
    | conjunction j => exact Conjunction.advance_diminishes h hs hc
  remaining_seek {s id} hs c hc hp := by
    cases s with
    | leaf l => exact Leaf.remaining_seek hc hp
    | disjunction d => exact Disjunction.seek_diminishes h hs hc hp
    | conjunction j => exact Conjunction.seek_diminishes h hs hc hp

theorem diminishing (n : Nat) : Diminishing (opsWithin n) (Settled n) := by
  induction n with
  | zero => constructor <;> intros <;> contradiction
  | succ n ih => exact diminishing_opsOver ih

end Stream

end ShardedSearch.Merge
