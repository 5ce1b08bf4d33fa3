import ShardedSearch.Proofs.Merge.Coverage
import ShardedSearch.Proofs.Merge.Faults

/-! # Draining lists of days and shards

Merges of listed days and shards are drained without errors. What they come to covers the
shards that all, or some, of the lists cover, and a disjunction puts no shard beside its day.
-/

namespace ShardedSearch.Merge

open Candidate
open Shard (StandsFor)

variable {c : Candidate} {cs : List Candidate} {css : List (List Candidate)} {id shard : ShardId}
variable {n : Nat}

/-! ### Leaves without errors -/

theorem Source.skipTo_map (id : ShardId) (c : Candidate) (cs : List Candidate) :
    skipTo id none c (cs.map (none, ·)) =
      pure ((reaching id (c :: cs)).head?, .ofList (reaching id (c :: cs)).tail) := by
  induction cs generalizing c with
  | nil =>
    rw [List.map_nil, skipTo, reaching, List.dropWhile_cons]
    split <;> rfl
  | cons d cs ih =>
    rw [List.map_cons, skipTo, reaching, List.dropWhile_cons]
    split
    · exact ih d
    · rfl

namespace Leaf

variable {l m : Leaf}

/-- The first candidate of a list is in view, the others are in a source without errors. -/
def Lists (l : Leaf) (cs : List Candidate) : Prop := l.state = .present cs.head? (.ofList cs.tail)

theorem head_of_lists (h : l.Lists cs) : l.head = cs.head? := by
  rw [head, h]

theorem advance_of_lists (h : l.Lists cs) :
    ∃ m, l.advance = pure (cs.head?, m) ∧ m.Lists cs.tail := by
  cases cs with
  | nil => exact ⟨l, advance_of_head_eq_none (settled_of_present h) (head_of_lists h), h⟩
  | cons c cs =>
    refine ⟨{ l with state := .present cs.head? (.ofList cs.tail) }, ?_, rfl⟩
    rw [advance_of_head h, List.tail_cons, Source.pull_ofList]
    rfl

theorem seek_of_lists (id : ShardId) (h : l.Lists cs) :
    ∃ m, l.seek id = pure m ∧ m.Lists (reaching id cs) := by
  cases cs with
  | nil => exact ⟨l, seek_of_head_eq_none (settled_of_present h) (head_of_lists h), h⟩
  | cons c cs =>
    refine ⟨⟨l.query, .present (reaching id (c :: cs)).head?
      (.ofList (reaching id (c :: cs)).tail)⟩, ?_, rfl⟩
    rw [seek_of_head h]
    simp only [List.tail_cons, Source.ofList, Source.skipTo_map]
    rfl

theorem lists_ofList (q : Query) (c : Candidate) (cs : List Candidate) :
    (ofList q (c :: cs)).Lists (c :: cs) := rfl

end Leaf

def Comparison.silent : Comparison where
  Rel R x y := (x.errors = [] ∧ y.errors = []) ∧ R x.value y.value
  pure h := ⟨⟨rfl, rfl⟩, h⟩
  bind h hf := by
    obtain ⟨⟨hx, hy⟩, hxy⟩ := h
    obtain ⟨⟨hf', hg'⟩, hfg⟩ := hf _ _ hxy
    exact ⟨⟨by rw [Raising.errors_bind, hx, hf']; rfl, by rw [Raising.errors_bind, hy, hg']; rfl⟩,
      hfg⟩

theorem eq_pure_of_errors {α : Type} {x : Raising α} (h : x.errors = []) : x = pure x.value := by
  cases x
  subst h
  rfl

def Leaf.Quiet (l m : Leaf) : Prop := l = m ∧ ∃ cs, l.Lists cs

theorem Leaf.leafSimilar_quiet : LeafSimilar .silent Quiet where
  settled h := by
    obtain ⟨rfl, cs, hl⟩ := h
    exact ⟨settled_of_present hl, settled_of_present hl⟩
  context h := by rw [h.1]
  query h := by rw [h.1]
  head h := by rw [h.1]
  advance h := by
    obtain ⟨rfl, cs, hl⟩ := h
    obtain ⟨m, ha, hm⟩ := advance_of_lists hl
    rw [ha]
    exact ⟨⟨rfl, rfl⟩, rfl, rfl, _, hm⟩
  seek id h := by
    obtain ⟨rfl, cs, hl⟩ := h
    obtain ⟨m, hk, hm⟩ := seek_of_lists id hl
    rw [hk]
    exact ⟨⟨rfl, rfl⟩, rfl, _, hm⟩

namespace Stream

variable {s t : Stream} {ss : List Stream} {k : Nat} {q : Query}

theorem advance_of_quiet (h : Alike Leaf.Quiet k s s) :
    s.advance.errors = [] ∧ Alike Leaf.Quiet k s.advance.value.2 s.advance.value.2 := by
  have hsettled := (settled_of_alike Leaf.leafSimilar_quiet (Nat.le_refl k) h).1
  obtain ⟨⟨herrors, -⟩, -, hnext⟩ :=
    (similar Leaf.leafSimilar_quiet (Nat.le_refl k) (Nat.le_refl k)).advance h
  rw [advance_eq hsettled]
  exact ⟨herrors, hnext⟩

theorem errors_take_of_quiet (h : Alike Leaf.Quiet k s s) (n : Nat) : (s.take n).errors = [] := by
  induction n generalizing s with
  | zero => rfl
  | succ n ih =>
    obtain ⟨herrors, hnext⟩ := advance_of_quiet h
    rw [take, Raising.errors_bind, herrors, List.nil_append]
    dsimp only
    split
    · rw [Raising.errors_bind, ih hnext]
      rfl
    · rfl

/-- A tree over lists of candidates is drained without an error. -/
theorem exists_drain_of_quiet (h : Alike Leaf.Quiet k s s) :
    ∃ cs t, s.drain = pure (cs, t) ∧ Drains s cs := by
  have hsettled := (settled_of_alike Leaf.leafSimilar_quiet (Nat.le_refl k) h).1
  have herrors : s.drain.errors = [] := by
    rw [drain, resolve_of_settled hsettled, pure_bind]
    exact errors_take_of_quiet h _
  exact ⟨_, _, eq_pure_of_errors herrors, drains_drain hsettled⟩

/-! ### Drained merges -/

/-- What is drained covers what the candidate in view stands for and what the lists behind it
cover, if every candidate that is taken leaves what was covered behind it. -/
theorem covers_of_drains {P : Stream → List (List Candidate) → Prop}
    {Cover : List (List Candidate) → ShardId → Prop}
    (hsettled : ∀ s css, P s css → Settled k s)
    (hstep : ∀ s css c, P s css → s.head = some c → ∃ dss, P s.advance.value.2 dss ∧
      ∀ shard, Leaves s.advance.value.2.head (Cover dss) shard ↔ Cover css shard)
    (hd : Drains s cs) (hs : P s css) (shard : ShardId) :
    Covers cs shard ↔ Leaves s.head (Cover css) shard := by
  induction hd generalizing css with
  | ended hc =>
    rw [taken (hsettled _ _ hs)] at hc
    exact iff_of_false not_covers_nil (by simp [Leaves, hc])
  | cons hc _ ih =>
    rw [taken (hsettled _ _ hs)] at hc
    obtain ⟨dss, hs', hleaves⟩ := hstep _ _ _ hs hc
    rw [covers_cons, ih hs', hleaves]
    simp [Leaves, hc]

variable {j : Conjunction Stream} {d : Disjunction Stream}

theorem advance_conjunction (hj : j.Settled (Settled n)) (hc : j.head = some c) :
    (Stream.conjunction j).advance.value.2 = .conjunction (j.refill (opsWithin n)).value := by
  rw [advance_eq (show Settled (n + 1) (.conjunction j) from hj)]
  change Stream.conjunction (j.advance (opsWithin n)).value.2 = _
  rw [Conjunction.advance, hc]
  rfl

theorem advance_disjunction (hd : d.Settled (Settled n)) (hc : d.head = some c) :
    (Stream.disjunction d).advance.value.2 = .disjunction (d.refill (opsWithin n)).value := by
  rw [advance_eq (show Settled (n + 1) (.disjunction d) from hd)]
  change Stream.disjunction (d.advance (opsWithin n)).value.2 = _
  rw [Disjunction.advance, hc]
  rfl

theorem covers_eq_false_of_pairwise
    (h : cs.Pairwise fun a b => Shard.precedes a.shard b.shard = true) :
    ∀ a ∈ cs, ∀ b ∈ cs, Shard.covers a.shard b.shard = false := by
  have hnot : ∀ {a b : ShardId}, ¬ a < b → Shard.covers a b = false := fun hlt =>
    Bool.eq_false_iff.mpr fun hcov => hlt (Shard.lt_of_covers hcov)
  induction cs with
  | nil => exact fun a ha => absurd ha List.not_mem_nil
  | cons c cs ih =>
    obtain ⟨hc, hcs⟩ := List.pairwise_cons.mp h
    intro a ha b hb
    rcases List.mem_cons.mp ha with rfl | has
    · rcases List.mem_cons.mp hb with rfl | hbs
      · exact hnot (String.lt_irrefl _)
      · exact (Shard.precedes_iff.mp (hc b hbs)).2
    · rcases List.mem_cons.mp hb with rfl | hbs
      · exact hnot (KeyOrder.not_lt_of_lt (Shard.precedes_iff.mp (hc a has)).1)
      · exact ih hcs a has b hbs

section Listed

variable {Lists : Stream → List Candidate → Prop} (h : Listed (opsWithin n) (Settled n) Lists)
include h

theorem settled_of_holds (hj : j.Holds Lists css) : j.Settled (Settled n) :=
  ⟨h.settled_of_forall₂ hj.children, fun s hs => by simp [hj.asked] at hs⟩

theorem conjunction_drains (hj : j.Holds Lists css) (hd : Drains (.conjunction j) cs) :
    ∀ shard, Covers cs shard ↔ Leaves j.head (AllCover css) shard := by
  refine covers_of_drains (k := n + 1)
    (P := fun s css => ∃ j, s = .conjunction j ∧ j.Holds Lists css) ?_ ?_ hd ⟨j, rfl, hj⟩
  · rintro _ _ ⟨j, rfl, hj⟩
    exact settled_of_holds h hj
  · rintro _ _ c ⟨j, rfl, hj⟩ hc
    obtain ⟨dss, hk, hleaves⟩ := Conjunction.refill_lists h hj
    rw [advance_conjunction (settled_of_holds h hj) hc]
    exact ⟨dss, ⟨_, rfl, hk⟩, hleaves⟩

theorem disjunction_drains (hd : List.Forall₂ Lists d.children css)
    (hs : Drains (.disjunction d) cs) :
    ∀ shard, Covers cs shard ↔ Leaves d.head (AnyCovers css) shard := by
  refine covers_of_drains (k := n + 1)
    (P := fun s css => ∃ d, s = .disjunction d ∧ List.Forall₂ Lists d.children css)
    ?_ ?_ hs ⟨d, rfl, hd⟩
  · rintro _ _ ⟨d, rfl, hd⟩
    exact h.settled_of_forall₂ hd
  · rintro _ _ c ⟨d, rfl, hd⟩ hc
    obtain ⟨dss, hk⟩ := Disjunction.refill_lists h hd
    rw [advance_disjunction (h.settled_of_forall₂ hd) hc]
    exact ⟨dss, ⟨_, rfl, hk.children⟩, hk.leaves⟩

/-- Whatever comes behind a candidate of a disjunction has to be moved on to. -/
theorem precedes_of_drains (hd : List.Forall₂ Lists d.children css)
    (hahead : ∀ c ∈ d.head, ∀ id, Disjunction.Names css id → Shard.precedes c.shard id = true)
    (hs : Drains (.disjunction d) cs) :
    cs.Pairwise (fun a b => Shard.precedes a.shard b.shard = true) ∧
      ∀ a ∈ cs, d.head = some a ∨ Disjunction.Names css a.shard := by
  generalize hstream : Stream.disjunction d = s at hs
  induction hs generalizing d css with
  | ended => exact ⟨.nil, fun a ha => absurd ha List.not_mem_nil⟩
  | @cons s c cs hc _ ih =>
    subst hstream
    have hsettled := h.settled_of_forall₂ hd
    rw [taken (show Settled (n + 1) (.disjunction d) from hsettled)] at hc
    have hc : d.head = some c := hc
    obtain ⟨dss, hk⟩ := Disjunction.refill_lists h hd
    obtain ⟨hpairwise, hnames⟩ := ih hk.children hk.ahead (advance_disjunction hsettled hc).symm
    have hrest : ∀ a ∈ cs, Disjunction.Names css a.shard := fun a ha =>
      (hnames a ha).elim (hk.named a) (hk.kept _)
    exact ⟨List.pairwise_cons.mpr ⟨fun a ha => hahead c hc _ (hrest a ha), hpairwise⟩,
      List.forall_mem_cons.mpr ⟨.inl hc, fun a ha => .inr (hrest a ha)⟩⟩

end Listed

/-! ### Merges of lists -/

def ListsDays (s : Stream) (cs : List Candidate) : Prop :=
  ∃ l, s = .leaf l ∧ l.Lists cs ∧ IsDayListing cs

theorem listed_listsDays (n : Nat) :
    Listed (opsWithin (n + 1)) (Settled (n + 1)) ListsDays where
  diminishing := diminishing (n + 1)
  settled := by
    rintro _ cs ⟨l, rfl, hl, -⟩
    exact Leaf.settled_of_present hl
  listing := by
    rintro _ cs ⟨l, -, -, hcs⟩
    exact hcs
  head := by
    rintro _ cs ⟨l, rfl, hl, -⟩
    exact Leaf.head_of_lists hl
  advance := by
    rintro _ cs ⟨l, rfl, hl, hcs⟩
    obtain ⟨m, ha, hm⟩ := Leaf.advance_of_lists hl
    exact ⟨m, by simp only [opsWithin, opsOver, ha]; rfl, hm, hcs.sublist (List.tail_sublist cs)⟩
  seek := by
    rintro _ cs id ⟨l, rfl, hl, hcs⟩
    obtain ⟨m, hk, hm⟩ := Leaf.seek_of_lists id hl
    exact ⟨m, by simp only [opsWithin, opsOver, hk]; rfl, hm, hcs.sublist reaching_sublist⟩

def ofLists (ls : List (Query × List Candidate)) : List Stream :=
  ls.map fun l => .leaf (.ofList l.1 l.2)

variable {ls : List (Query × List Candidate)} {pool : Option WorkerPool}

theorem context_ofList (q : Query) (cs : List Candidate) :
    (Leaf.ofList q cs).context = if cs.isEmpty then .absent else .present := by
  cases cs <;> rfl

theorem settled_ofLists : ∀ s ∈ ofLists ls, Settled 1 s := by
  intro s hs
  obtain ⟨l, -, rfl⟩ := List.mem_map.mp hs
  exact Leaf.settled_stateOf _ _

theorem awaitAll_of_settled {ss : List Stream} (hs : ∀ s ∈ ss, Settled k s) :
    awaitAll ss = pure ss := by
  induction ss with
  | nil => rfl
  | cons s ss ih =>
    rw [List.forall_mem_cons] at hs
    rw [awaitAll, await_of_settled hs.1, ih hs.2]
    rfl

theorem resolveAll_ofLists (pool : Option WorkerPool) (ls : List (Query × List Candidate)) :
    resolveAll pool (ofLists ls) = pure (ofLists ls) := by
  rw [resolveAll_of_ne_pending, awaitAll_of_settled settled_ofLists]
  intro s hs
  obtain ⟨l, -, rfl⟩ := List.mem_map.mp hs
  rw [context, context_ofList]
  split <;> simp

def filled (ls : List (Query × List Candidate)) : List (Query × List Candidate) :=
  ls.filter fun l => !l.2.isEmpty

theorem opsFor_ofLists (hne : ls ≠ []) : ∃ n, opsFor (ofLists ls) = opsWithin (n + 1) := by
  obtain ⟨l, ls, rfl⟩ := List.exists_cons_of_ne_nil hne
  have hheight : heightOfAll (ofLists (l :: ls)) ≠ 0 :=
    Nat.ne_zero_of_lt (Nat.le_max_left 1 (heightOfAll (ofLists ls)))
  obtain ⟨n, hn⟩ := Nat.exists_eq_succ_of_ne_zero hheight
  exact ⟨n, by rw [opsFor, hn]⟩

theorem forall₂_listsDays (hls : ∀ l ∈ ls, IsDayListing l.2) (hfull : ∀ l ∈ ls, l.2 ≠ []) :
    List.Forall₂ ListsDays (ofLists ls) (ls.map (·.2)) := by
  induction ls with
  | nil => exact .nil
  | cons l ls ih =>
    refine .cons ?_ (ih (fun m hm => hls m (List.mem_cons_of_mem l hm))
      fun m hm => hfull m (List.mem_cons_of_mem l hm))
    refine ⟨_, rfl, ?_, hls l List.mem_cons_self⟩
    obtain ⟨q, cs⟩ := l
    obtain ⟨c, cs, rfl⟩ := List.exists_cons_of_ne_nil (hfull _ List.mem_cons_self)
    exact Leaf.lists_ofList q c cs

theorem quiet_of_listsDays {ss : List Stream} (hr : List.Forall₂ ListsDays ss css) :
    List.Forall₂ (Alike Leaf.Quiet 1) ss ss := by
  induction hr with
  | nil => exact .nil
  | cons hs _ ih =>
    obtain ⟨l, rfl, hl, -⟩ := hs
    exact .cons (.leaf ⟨rfl, _, hl⟩) ih

theorem sort_ofLists (ls : List (Query × List Candidate)) (n : Nat) :
    Disjunction.sort (opsWithin (n + 1)) (ofLists ls) = (ofLists (filled ls), []) := by
  induction ls with
  | nil => rfl
  | cons l ls ih =>
    have hcontext : (opsWithin (n + 1)).context (.leaf (.ofList l.1 l.2)) =
        if l.2.isEmpty then .absent else .present := context_ofList l.1 l.2
    have hfilled : filled (l :: ls) = if l.2.isEmpty then filled ls else l :: filled ls := by
      cases hempty : l.2.isEmpty <;> simp [filled, hempty]
    change Disjunction.sort _ (.leaf (.ofList l.1 l.2) :: ofLists ls) = _
    rw [Disjunction.sort, ih, hcontext, hfilled]
    cases l.2.isEmpty <;> rfl

theorem run_lift_of_errors {α : Type} {x : Raising α} (hx : x.errors = []) :
    (liftM x : Making α).run = pure (.ok x.value) := by
  rw [eq_pure_of_errors hx]
  rfl

theorem context_of_filled (n : Nat) (hls : ∀ l ∈ ls, l.2 ≠ []) :
    ∀ s ∈ ofLists ls, (opsWithin (n + 1)).context s = .present := by
  intro s hs
  obtain ⟨l, hl, rfl⟩ := List.mem_map.mp hs
  exact (context_ofList l.1 l.2).trans (if_neg (by simpa using hls l hl))

theorem conjunction_ofStreams_of_filled (q : Query) (n : Nat) (hne : ls ≠ [])
    (hls : ∀ l ∈ ls, l.2 ≠ []) :
    Conjunction.ofStreams (opsWithin (n + 1)) q (ofLists ls) =
      Conjunction.refill (opsWithin (n + 1)) ⟨q, .present, ofLists ls, [], [], none⟩ := by
  have hall := context_of_filled n hls
  have hfilter : ∀ p : Context → Bool,
      (ofLists ls).filter (fun s => p ((opsWithin (n + 1)).context s)) =
        if p .present then ofLists ls else [] := by
    intro p
    rw [List.filter_congr fun s hs => congrArg p (hall s hs)]
    cases p .present <;> simp
  have habsent : ((ofLists ls).any fun s => (opsWithin (n + 1)).context s = .absent) = false := by
    rw [List.any_eq_false]
    intro s hs
    simp [hall s hs]
  have hchildren := hfilter fun c => c = .present || c = .pending
  have hmixed := hfilter fun c => c = .mixed
  have hdeferred := hfilter fun c => c = .delayed
  have hnotEmpty : (ofLists ls).isEmpty = false := by simpa [ofLists] using hne
  rw [Conjunction.ofStreams, habsent, hchildren, hmixed, hdeferred]
  simp [hnotEmpty]

theorem conjunction_ofStreams_of_empty (q : Query) (n : Nat) {l : Query × List Candidate}
    (hl : l ∈ ls) (hempty : l.2 = []) :
    Conjunction.ofStreams (opsWithin (n + 1)) q (ofLists ls) = pure (Conjunction.nothing q) := by
  have hcontext : (opsWithin (n + 1)).context (.leaf (.ofList l.1 l.2)) = .absent :=
    (context_ofList l.1 l.2).trans (if_pos (by rw [hempty]; rfl))
  have habsent : ((ofLists ls).any fun s => (opsWithin (n + 1)).context s = .absent) = true :=
    List.any_eq_true.mpr ⟨_, List.mem_map_of_mem hl, decide_eq_true hcontext⟩
  rw [Conjunction.ofStreams, if_pos habsent]

/-- A conjunction of lists is drained to the shards that all of them cover. -/
theorem allOf_ofLists (q : Query) (pool : Option WorkerPool) (hne : ls ≠ [])
    (hls : ∀ l ∈ ls, IsDayListing l.2) :
    ∃ j cs s, (allOf q (ofLists ls) pool).run = pure (.ok j) ∧
      (Stream.conjunction j).drain = pure (cs, s) ∧
      ∀ shard, Covers cs shard ↔ ∀ l ∈ ls, Covers l.2 shard := by
  obtain ⟨n, hops⟩ := opsFor_ofLists hne
  have hmade : allOf q (ofLists ls) pool =
      liftM (Conjunction.ofStreams (opsWithin (n + 1)) q (ofLists ls)) := by
    rw [allOf, resolveAll_ofLists, pure_bind, hops]
  by_cases hfull : ∀ l ∈ ls, l.2 ≠ []
  · have hr := forall₂_listsDays hls hfull
    obtain ⟨⟨herrors, -⟩, halike⟩ := Conjunction.refill_similar
      (similar Leaf.leafSimilar_quiet (Nat.le_add_left 1 n) (Nat.le_add_left 1 n))
      (i := ⟨q, .present, ofLists ls, [], [], none⟩)
      ⟨rfl, rfl, rfl, rfl, quiet_of_listsDays hr, .nil⟩
    obtain ⟨dss, hholds, hleaves⟩ := Conjunction.refill_lists (listed_listsDays n)
      (j := ⟨q, .present, ofLists ls, [], [], none⟩) ⟨hr, by simpa using hne, rfl, rfl⟩
    obtain ⟨cs, s, hdrain, hdrains⟩ := exists_drain_of_quiet (k := 2) (.conjunction halike)
    rw [hmade, conjunction_ofStreams_of_filled q n hne hfull, run_lift_of_errors herrors]
    refine ⟨_, cs, s, rfl, hdrain, fun shard => ?_⟩
    rw [conjunction_drains (listed_listsDays n) hholds hdrains, hleaves, AllCover,
      List.forall_mem_map]
  · obtain ⟨l, hl, hempty⟩ : ∃ l ∈ ls, l.2 = [] := by simpa using hfull
    rw [hmade, conjunction_ofStreams_of_empty q n hl hempty]
    refine ⟨_, [], _, rfl, rfl, fun shard => iff_of_false not_covers_nil fun hall => ?_⟩
    exact not_covers_nil (hempty ▸ hall l hl)

/-- A disjunction of lists is drained to the shards that some of them cover, and not to a day
together with one of its shards. -/
theorem anyOf_ofLists (q : Query) (pool : Option WorkerPool) (hne : ls ≠ [])
    (hls : ∀ l ∈ ls, IsDayListing l.2) :
    ∃ d cs s, (anyOf q (ofLists ls) pool).run = pure (.ok d) ∧
      (Stream.disjunction d).drain = pure (cs, s) ∧
      (∀ shard, Covers cs shard ↔ ∃ l ∈ ls, Covers l.2 shard) ∧
      ∀ a ∈ cs, ∀ b ∈ cs, Shard.covers a.shard b.shard = false := by
  obtain ⟨n, hops⟩ := opsFor_ofLists hne
  have hfilled : ∀ l, l ∈ filled ls ↔ l ∈ ls ∧ l.2 ≠ [] := by simp [filled]
  have hr : List.Forall₂ ListsDays (ofLists (filled ls)) ((filled ls).map (·.2)) :=
    forall₂_listsDays (fun l hl => hls l ((hfilled l).mp hl).1) fun l hl => ((hfilled l).mp hl).2
  let merge : Disjunction Stream :=
    ⟨q, Disjunction.contextOf (ofLists (filled ls)) [], ofLists (filled ls), [], none⟩
  have hmade : anyOf q (ofLists ls) pool = liftM (merge.refill (opsWithin (n + 1))) := by
    rw [anyOf, resolveAll_ofLists, pure_bind, hops, Disjunction.ofStreams, sort_ofLists]
  obtain ⟨⟨herrors, -⟩, halike⟩ := Disjunction.refill_similar
    (similar Leaf.leafSimilar_quiet (Nat.le_add_left 1 n) (Nat.le_add_left 1 n)) (d := merge)
    ⟨rfl, rfl, rfl, rfl, quiet_of_listsDays hr⟩
  obtain ⟨dss, hk⟩ := Disjunction.refill_lists (listed_listsDays n) (d := merge) hr
  obtain ⟨cs, s, hdrain, hdrains⟩ := exists_drain_of_quiet (k := 2) (.disjunction halike)
  have hpairwise := (precedes_of_drains (listed_listsDays n) hk.children hk.ahead hdrains).1
  rw [hmade, run_lift_of_errors herrors]
  refine ⟨_, cs, s, rfl, hdrain, fun shard => ?_, fun a ha b hb => ?_⟩
  · rw [disjunction_drains (listed_listsDays n) hk.children hdrains, hk.leaves]
    constructor
    · rintro ⟨_, hmem, hcovers⟩
      obtain ⟨l, hl, rfl⟩ := List.mem_map.mp hmem
      exact ⟨l, ((hfilled l).mp hl).1, hcovers⟩
    · rintro ⟨l, hl, hcovers⟩
      have hfull : l.2 ≠ [] := fun hnil => not_covers_nil (hnil ▸ hcovers)
      exact ⟨l.2, List.mem_map_of_mem ((hfilled l).mpr ⟨hl, hfull⟩), hcovers⟩
  · exact covers_eq_false_of_pairwise hpairwise a ha b hb

/-- Merges of lists cover the shards that all of the lists, or some of them, cover; a day
stands for its shards, and a disjunction lists none of them beside it. -/
theorem merges_cover (q : Query) (pool : Option WorkerPool) (hne : ls ≠ [])
    (hls : ∀ l ∈ ls, IsDayListing l.2) :
    (∃ j cs s, (allOf q (ofLists ls) pool).run = pure (.ok j) ∧
      (Stream.conjunction j).drain = pure (cs, s) ∧
      ∀ shard, Covers cs shard ↔ ∀ l ∈ ls, Covers l.2 shard) ∧
    ∃ d cs s, (anyOf q (ofLists ls) pool).run = pure (.ok d) ∧
      (Stream.disjunction d).drain = pure (cs, s) ∧
      (∀ shard, Covers cs shard ↔ ∃ l ∈ ls, Covers l.2 shard) ∧
      ∀ a ∈ cs, ∀ b ∈ cs, Shard.covers a.shard b.shard = false :=
  ⟨allOf_ofLists q pool hne hls, anyOf_ofLists q pool hne hls⟩

def dayLists : List (Query × List Candidate) :=
  [(.equals "A" "1", ["20240101", "20240101_1", "20240102_3"].map fun id =>
      ⟨id, .unknown (.equals "A" "1")⟩),
    (.equals "B" "2", ["20240101_0", "20240101_1", "20240102"].map fun id =>
      ⟨id, .unknown (.equals "B" "2")⟩)]

theorem merges_cover_dayLists :
    dayLists ≠ [] ∧ (∀ l ∈ dayLists, IsDayListing l.2) ∧
    (∃ j cs s, (allOf (.and []) (ofLists dayLists) none).run = pure (.ok j) ∧
      (Stream.conjunction j).drain = pure (cs, s) ∧
      ∀ shard, Covers cs shard ↔ ∀ l ∈ dayLists, Covers l.2 shard) ∧
    ∃ d cs s, (anyOf (.and []) (ofLists dayLists) none).run = pure (.ok d) ∧
      (Stream.disjunction d).drain = pure (cs, s) ∧
      (∀ shard, Covers cs shard ↔ ∃ l ∈ dayLists, Covers l.2 shard) ∧
      ∀ a ∈ cs, ∀ b ∈ cs, Shard.covers a.shard b.shard = false := by
  have hne : dayLists ≠ [] := by decide
  have hascending : ∀ l ∈ dayLists, Ascending l.2 := by decide +kernel
  have hdated : ∀ l ∈ dayLists, ∀ c ∈ l.2, Shard.IsDated c.shard := by decide +kernel
  have hunknown : ∀ l ∈ dayLists, ∀ c ∈ l.2, c.evidence.found = .unknown := by decide +kernel
  have hls : ∀ l ∈ dayLists, IsDayListing l.2 := fun l hl =>
    ⟨hascending l hl, hdated l hl, hunknown l hl⟩
  exact ⟨hne, hls, merges_cover (.and []) none hne hls⟩

/-- The day of the first list is kept in view for two shards of the second. -/
example : ((allOf (.and []) (ofLists dayLists) none).run.value.toOption.map fun j =>
    (Stream.conjunction j).drain.value.1.map (·.shard)) =
      some ["20240101_0", "20240101_1", "20240102_3"] := by
  decide +kernel

end Stream

end ShardedSearch.Merge
