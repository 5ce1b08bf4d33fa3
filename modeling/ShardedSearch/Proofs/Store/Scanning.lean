import ShardedSearch.Proofs.Order.Collections
import ShardedSearch.Store.Scanner

/-! # What scanners return

The entries that a scanner still returns are those of its table that it reaches, that its
range does not end before and that it accepts. Reading takes them one by one in key order;
seeking leaves out those below the key.
-/

namespace ShardedSearch.Store

/-! ### Ranges and positions -/

theorem takeWhile_eq_filter_of_pairwise {α : Type} {r : α → α → Prop} {p : α → Bool} {xs : List α}
    (h : xs.Pairwise r) (hp : ∀ a b, r a b → p b = true → p a = true) :
    xs.takeWhile p = xs.filter p := by
  induction xs with
  | nil => rfl
  | cons x xs ih =>
    obtain ⟨hx, hxs⟩ := List.pairwise_cons.mp h
    rw [List.takeWhile_cons, List.filter_cons]
    split
    · rw [ih hxs]
    · next hn =>
      refine (List.filter_eq_nil_iff.mpr fun y hy hpy => hn ?_).symm
      exact hp x y (hx y hy) hpy

theorem Range.isBefore_of_lt {r : Range} {k l : Key} (h : r.isBefore k = true) (hlt : k < l) :
    r.isBefore l = true := by
  unfold isBefore at h ⊢
  cases hs : r.stop? with
  | none => simp [hs] at h
  | some stop =>
    cases hi : r.stopIncluded with
    | true =>
      simp only [hs, hi, if_true, decide_eq_true_eq] at h ⊢
      exact KeyOrder.trans h hlt
    | false =>
      simp only [hs, hi, Bool.false_eq_true, if_false, decide_eq_true_eq] at h ⊢
      exact fun hl => h (KeyOrder.trans hlt hl)

theorem Range.isAfter_of_lt {r : Range} {k l : Key} (h : r.isAfter l = true) (hlt : k < l) :
    r.isAfter k = true := by
  unfold isAfter at h ⊢
  cases hi : r.startIncluded with
  | true =>
    simp only [hi, if_true, decide_eq_true_eq] at h ⊢
    exact KeyOrder.trans hlt h
  | false =>
    simp only [hi, Bool.false_eq_true, if_false, decide_eq_true_eq] at h ⊢
    exact fun hl => h (KeyOrder.trans hl hlt)

theorem Range.isAfter_iff {r : Range} {k : Key} (h : r.startIncluded = true) :
    r.isAfter k = true ↔ k < r.start := by
  rw [isAfter, if_pos h, decide_eq_true_eq]

theorem Range.isBefore_iff {r : Range} {stop k : Key} (hs : r.stop? = some stop)
    (h : r.stopIncluded = false) : r.isBefore k = true ↔ ¬ k < stop := by
  simp only [isBefore, hs, h, Bool.false_eq_true, if_false, decide_eq_true_eq]

theorem Range.contains_iff {r : Range} {k : Key} :
    r.contains k = true ↔ ¬ r.isAfter k = true ∧ ¬ r.isBefore k = true := by
  simp [contains]

theorem Range.contains_halfOpen_iff {start stop k : Key} :
    (halfOpen start stop).contains k = true ↔ ¬ k < start ∧ k < stop := by
  rw [contains_iff, isAfter_iff rfl, isBefore_iff rfl rfl, Decidable.not_not]
  rfl

theorem Position.admits_of_lt {p : Position} {k l : Key} (h : p.admits k = true) (hlt : k < l) :
    p.admits l = true := by
  cases p with
  | «at» key =>
    simp only [admits, decide_eq_true_eq] at h ⊢
    exact fun hl => h (KeyOrder.trans hlt hl)
  | past key =>
    simp only [admits, decide_eq_true_eq] at h ⊢
    exact KeyOrder.trans h hlt

namespace Scanner

variable {s : Scanner} {e : Entry} {es : List Entry} {k l : Key}

def left (s : Scanner) : List Entry :=
  s.entries.filter fun e => s.reaches e.1 && (!s.isPast e.1 && s.accepts e.1)

theorem reaches_of_lt (h : s.reaches k = true) (hlt : k < l) : s.reaches l = true := by
  unfold reaches at h ⊢
  split
  · exact Position.admits_of_lt (by simpa [*] using h) hlt
  · simp only [*, Bool.not_eq_true'] at h ⊢
    exact Bool.eq_false_iff.mpr fun ha =>
      Bool.false_ne_true (h.symm.trans (Range.isAfter_of_lt ha hlt))
  · rfl

theorem isPast_of_lt (h : s.isPast k = true) (hlt : k < l) : s.isPast l = true := by
  unfold isPast at h ⊢
  split
  · exact Range.isBefore_of_lt (by simpa [*] using h) hlt
  · simp_all

theorem ascending_left (hs : s.entries.Pairwise (·.1 < ·.1)) : s.left.Pairwise (·.1 < ·.1) :=
  hs.sublist List.filter_sublist

theorem head?_eq (hs : s.entries.Pairwise (·.1 < ·.1)) : s.head? = s.left.head? := by
  have hw : (s.entries.filter (s.reaches ·.1)).takeWhile (!s.isPast ·.1) =
      (s.entries.filter (s.reaches ·.1)).filter (!s.isPast ·.1) :=
    takeWhile_eq_filter_of_pairwise (hs.sublist List.filter_sublist) fun a b hlt hb =>
      Bool.not_eq_true' _ ▸ Bool.eq_false_iff.mpr fun ha => by simp [isPast_of_lt ha hlt] at hb
  rw [head?, hw, ← List.head?_filter, List.filter_filter, List.filter_filter, left]
  congr 2
  funext e
  rw [Bool.and_comm, Bool.and_comm (s.accepts e.1), ← Bool.and_assoc]

theorem left_past (hs : s.entries.Pairwise (·.1 < ·.1)) (h : s.left = e :: es) {n : Nat} :
    left { s with reads := n, position := some (.past e.1) } = es := by
  have hasc := h ▸ ascending_left hs
  obtain ⟨hes, -⟩ := List.pairwise_cons.mp hasc
  have hr : s.reaches e.1 = true := by
    have he : e ∈ s.left := h ▸ List.mem_cons_self
    exact (Bool.and_eq_true_iff.mp (List.mem_filter.mp he).2).1
  have hcut : es = s.left.filter (decide <| e.1 < ·.1) := by
    have hself : ¬ e.1 < e.1 := KeyOrder.irrefl _
    rw [h, List.filter_cons, if_neg (by simpa using hself)]
    exact (List.filter_eq_self.mpr fun x hx => decide_eq_true (hes x hx)).symm
  rw [hcut, left, left, List.filter_filter]
  apply List.filter_congr
  intro x _
  change (decide (e.1 < x.1) && (!s.isPast x.1 && s.accepts x.1)) = _
  by_cases hx : e.1 < x.1
  · rw [decide_eq_true hx, reaches_of_lt hr hx, Bool.true_and, Bool.true_and]
  · rw [decide_eq_false hx, Bool.false_and, Bool.false_and]

theorem isSpent_iff : s.isSpent = true ↔ ∃ l ∈ s.readLimit s.table s.range, l ≤ s.reads := by
  rw [isSpent]
  cases s.readLimit s.table s.range <;> simp

theorem next_error_iff {err : StoreError} :
    s.next.1 = .error err ↔ s.isSpent = true ∧ err = .unavailable s.table := by
  rw [next]
  split
  · next hspent =>
    rw [and_iff_right hspent, Except.error.injEq]
    exact eq_comm
  · next hspent => exact iff_of_false nofun fun h => hspent h.1

theorem next_of_unlimited (hn : s.readLimit s.table s.range = none) :
    s.next = (.ok s.head?, move { s with reads := s.reads + 1 } s.head?) := by
  have hspent : s.isSpent = false := by rw [isSpent, hn]
  simp only [next, hspent, Bool.false_eq_true, if_false]

theorem next_of_left (hs : s.entries.Pairwise (·.1 < ·.1))
    (hn : s.readLimit s.table s.range = none) (h : s.left = e :: es) :
    s.next = (.ok (some e), { s with reads := s.reads + 1, position := some (.past e.1) }) := by
  rw [next_of_unlimited hn, head?_eq hs, h]
  rfl

theorem next_of_left_nil (hs : s.entries.Pairwise (·.1 < ·.1))
    (hn : s.readLimit s.table s.range = none) (h : s.left = []) : s.next.1 = .ok none := by
  rw [next_of_unlimited hn, head?_eq hs, h]
  rfl

/-- What a scanner that answers has returned, and what is left behind it. -/
theorem exists_of_next {s' : Scanner} (hs : s.entries.Pairwise (·.1 < ·.1))
    (h : s.next = (.ok (some e), s')) :
    ∃ es, s.left = e :: es ∧ s'.left = es ∧ s'.entries = s.entries := by
  rw [next] at h
  split at h
  · cases h
  · obtain ⟨hhead, rfl⟩ := Prod.mk.inj h
    have hhead : s.head? = some e := Except.ok.inj hhead
    rw [head?_eq hs] at hhead
    obtain ⟨es, hes⟩ := List.head?_eq_some_iff.mp hhead
    rw [head?_eq hs, hhead]
    exact ⟨es, hes, left_past hs hes, rfl⟩

theorem left_of_next_none (hs : s.entries.Pairwise (·.1 < ·.1)) (h : s.next.1 = .ok none) :
    s.left = [] := by
  rw [next] at h
  split at h
  · cases h
  · rw [head?_eq hs] at h
    exact List.head?_eq_none_iff.mp (Except.ok.inj h)

theorem left_seek (k : Key) : (s.seek k).left = s.left ∨
    (s.seek k).left = s.left.filter fun e => ¬ e.1 < k := by
  unfold seek
  split
  · exact .inl rfl
  · next hrange =>
    split
    · exact .inl rfl
    · next hposition =>
      refine .inr ?_
      rw [left, left, List.filter_filter]
      apply List.filter_congr
      intro x _
      change (decide (¬ x.1 < k) && (!s.isPast x.1 && s.accepts x.1)) = _
      by_cases hx : x.1 < k
      · simp [hx]
      · -- Behind the key the scanner has not been yet, nor has the range not begun.
        have hr : s.reaches x.1 = true := by
          unfold reaches
          split
          · next p hp =>
            rw [hp] at hposition
            simp only [Option.any_some, decide_eq_true_eq, Decidable.not_not] at hposition
            cases p with
            | «at» l =>
              exact decide_eq_true fun h => hx (KeyOrder.trans h hposition)
            | past l =>
              rcases KeyOrder.lt_or_eq_of_not_lt hx with h | rfl
              · exact decide_eq_true (KeyOrder.trans hposition h)
              · exact decide_eq_true hposition
          · next r _ hr =>
            rw [hr] at hrange
            simp only [Option.any_some] at hrange
            rw [Bool.not_eq_true', ← Bool.not_eq_true]
            intro ha
            rcases KeyOrder.lt_or_eq_of_not_lt hx with h | rfl
            · exact hrange (Range.isAfter_of_lt ha h)
            · exact hrange ha
          · rfl
        simp [hx, hr]

theorem sublist_left_seek (k : Key) : (s.seek k).left.Sublist s.left := by
  rcases left_seek (s := s) k with h | h
  · rw [h]
  · rw [h]
    exact List.filter_sublist

theorem entries_seek (k : Key) : (s.seek k).entries = s.entries := by
  unfold seek
  split
  · rfl
  · split <;> rfl

def Unlimited (s : Scanner) : Prop := s.readLimit s.table s.range = none

theorem Unlimited.next (h : s.Unlimited) : ∃ o, s.next.1 = .ok o ∧ s.next.2.Unlimited := by
  rw [next_of_unlimited h]
  refine ⟨s.head?, rfl, ?_⟩
  unfold move
  split
  · exact h
  · split <;> exact h

theorem Unlimited.seek (h : s.Unlimited) (k : Key) : (s.seek k).Unlimited := by
  unfold Scanner.seek
  split
  · exact h
  · split <;> exact h

theorem left_setRange (name : String) (t : Table) (limit : ReadLimit) (r : Range) :
    ((ofTable name t limit).setRange r).left = t.toList.filter (r.contains ·.1) := by
  apply List.filter_congr
  intro x _
  change (!r.isAfter x.1 && (!r.isBefore x.1 && (true && true))) = _
  rw [Range.contains]
  simp

/-! ### Reading several entries -/

/-- A scanner that does not fail and still returns some entries. -/
structure Returns (s : Scanner) (es : List Entry) : Prop where
  ascending : s.entries.Pairwise (·.1 < ·.1)
  unlimited : s.readLimit s.table s.range = none
  left_eq : s.left = es

theorem Returns.past {n : Nat} (h : s.Returns (e :: es)) :
    Returns { s with reads := n, position := some (.past e.1) } es :=
  ⟨h.ascending, h.unlimited, left_past h.ascending h.left_eq⟩

theorem Returns.length_le (h : s.Returns es) : es.length ≤ s.entries.length := by
  rw [← h.left_eq]
  exact List.length_filter_le ..

theorem readMany_of_returns_of_le {n : Nat} (h : s.Returns es) (hn : n ≤ es.length) :
    ∃ s', s.readMany n = (es.take n, .enough, s') ∧ s'.Returns (es.drop n) ∧
      s'.entries = s.entries := by
  induction n generalizing s es with
  | zero => exact ⟨s, rfl, h, rfl⟩
  | succ n ih =>
    cases es with
    | nil => simp at hn
    | cons e es =>
      obtain ⟨s', hs', hr, he⟩ := ih (h.past (n := s.reads + 1)) (Nat.le_of_succ_le_succ hn)
      refine ⟨s', ?_, hr, he⟩
      rw [readMany, next_of_left h.ascending h.unlimited h.left_eq]
      simp only [hs', List.take_succ_cons]

theorem readMany_of_returns_of_lt {n : Nat} (h : s.Returns es) (hn : es.length < n) :
    ∃ s', s.readMany n = (es, .exhausted, s') := by
  induction n generalizing s es with
  | zero => simp at hn
  | succ n ih =>
    cases es with
    | nil =>
      have hnone := next_of_left_nil h.ascending h.unlimited h.left_eq
      refine ⟨s.next.2, ?_⟩
      rw [readMany]
      split
      · next e s' he => simp [he] at hnone
      · next s' he => rw [he]
      · next e s' he => simp [he] at hnone
    | cons e es =>
      obtain ⟨s', hs'⟩ := ih (h.past (n := s.reads + 1)) (Nat.lt_of_succ_lt_succ hn)
      refine ⟨s', ?_⟩
      rw [readMany, next_of_left h.ascending h.unlimited h.left_eq]
      simp only [hs']

theorem readMany_of_not_failed {n : Nat} {s' : Scanner} {ending : Ending}
    (hs : s.entries.Pairwise (·.1 < ·.1)) (hn : s.left.length < n)
    (h : s.readMany n = (es, ending, s')) (hok : ∀ err, ending ≠ .failed err) : es = s.left := by
  induction n generalizing s es ending s' with
  | zero => simp at hn
  | succ n ih =>
    rw [readMany] at h
    split at h
    · next e s₁ hnext =>
      obtain ⟨rest, hleft, hrest, hentries⟩ := exists_of_next hs hnext
      rw [← hentries] at hs
      rw [hleft] at hn ⊢
      rw [← hrest] at hn ⊢
      obtain ⟨rfl, rfl, -⟩ : e :: (s₁.readMany n).1 = es ∧ (s₁.readMany n).2.1 = ending ∧ _ := by
        simpa only [Prod.mk.injEq] using h
      rw [ih hs (Nat.lt_of_succ_lt_succ hn) rfl hok]
    · next s₁ hnext =>
      rw [left_of_next_none hs (by rw [hnext])]
      exact (Prod.mk.inj h).1.symm
    · next err s₁ hnext =>
      exact absurd (Prod.mk.inj (Prod.mk.inj h).2).1.symm (hok err)

/-! ### Reads that may fail -/

/-- A scanner of the same table and range, with the same reads to fail. -/
structure Continues (s s' : Scanner) : Prop where
  entries : s'.entries = s.entries
  table : s'.table = s.table
  range : s'.range = s.range
  readLimit : s'.readLimit = s.readLimit

theorem Continues.trans {s₁ s₂ : Scanner} (h : s.Continues s₁) (h' : s₁.Continues s₂) :
    s.Continues s₂ :=
  ⟨h'.entries.trans h.entries, h'.table.trans h.table, h'.range.trans h.range,
    h'.readLimit.trans h.readLimit⟩

/-- The error of a failed read, which only a limited scanner has. -/
def MayFail (s : Scanner) (e : StoreError) : Prop :=
  e = .unavailable s.table ∧ s.readLimit s.table s.range ≠ none

theorem MayFail.of_continues {s' : Scanner} {e : StoreError} (h : s.Continues s')
    (he : s'.MayFail e) : s.MayFail e := by
  rw [MayFail, h.table, h.range, h.readLimit] at he
  exact he

theorem continues_move (s : Scanner) (e? : Option Entry) : s.Continues (s.move e?) := by
  unfold move
  split
  · exact ⟨rfl, rfl, rfl, rfl⟩
  · split <;> exact ⟨rfl, rfl, rfl, rfl⟩

theorem continues_next (s : Scanner) : s.Continues s.next.2 := by
  have hcounted : s.Continues { s with reads := s.reads + 1 } := ⟨rfl, rfl, rfl, rfl⟩
  unfold next
  dsimp only
  split
  · exact hcounted
  · exact hcounted.trans (continues_move _ _)

theorem mayFail_of_next {err : StoreError} (h : s.next.1 = .error err) : s.MayFail err := by
  obtain ⟨hspent, rfl⟩ := next_error_iff.mp h
  obtain ⟨l, hl, -⟩ := isSpent_iff.mp hspent
  exact ⟨rfl, fun hnone => Option.not_mem_none l (hnone ▸ hl)⟩

theorem reads_next (s : Scanner) : s.next.2.reads = s.reads + 1 := by
  have hmove : ∀ (s : Scanner) (e? : Option Entry), (s.move e?).reads = s.reads := by
    intro s e?
    unfold move
    split
    · rfl
    · split <;> rfl
  unfold next
  dsimp only
  split
  · rfl
  · exact hmove _ _

theorem not_failed_of_le {n : Nat} (h : ∀ l ∈ s.readLimit s.table s.range, s.reads + n ≤ l)
    (err : StoreError) : (s.readMany n).2.1 ≠ .failed err := by
  induction n generalizing s with
  | zero => nofun
  | succ n ih =>
    have hcontinues := s.continues_next
    have hreads := s.reads_next
    rw [readMany]
    split
    · next e s₁ hnext =>
      rw [hnext] at hcontinues hreads
      refine ih fun l hl => ?_
      rw [hcontinues.readLimit, hcontinues.table, hcontinues.range] at hl
      have hle := h l hl
      dsimp only at hreads
      omega
    · nofun
    · next e s₁ hnext =>
      obtain ⟨hspent, -⟩ := next_error_iff.mp (congrArg Prod.fst hnext)
      obtain ⟨l, hl, hle⟩ := isSpent_iff.mp hspent
      have hlimit := h l hl
      omega

/-- Reading to the end does not fail exactly if the limit leaves a read for every entry and one
for finding no more. -/
theorem not_failed_iff {n : Nat} (hs : s.entries.Pairwise (·.1 < ·.1)) (hn : s.left.length < n) :
    (∀ err, (s.readMany n).2.1 ≠ .failed err) ↔
      ∀ l ∈ s.readLimit s.table s.range, s.reads + s.left.length < l := by
  induction n generalizing s with
  | zero => exact absurd hn (Nat.not_lt_zero _)
  | succ n ih =>
    have hcontinues := s.continues_next
    have hreads := s.reads_next
    rw [readMany]
    split
    · next e s₁ hnext =>
      rw [hnext] at hcontinues hreads
      dsimp only at hcontinues hreads
      obtain ⟨rest, hleft, rfl, hentries⟩ := exists_of_next hs hnext
      rw [hleft, List.length_cons] at hn ⊢
      have hsum : s₁.reads + s₁.left.length = s.reads + (s₁.left.length + 1) := by omega
      rw [← hsum, ← hcontinues.readLimit, ← hcontinues.table, ← hcontinues.range]
      exact ih (hentries ▸ hs) (Nat.lt_of_succ_lt_succ hn)
    · next s₁ hnext =>
      rw [left_of_next_none hs (by rw [hnext])]
      refine iff_of_true (fun _ => nofun) fun l hl => Nat.lt_of_not_le fun hle => ?_
      have hfails := next_error_iff.mpr ⟨isSpent_iff.mpr ⟨l, hl, hle⟩, rfl⟩
      rw [hnext] at hfails
      cases hfails
    · next err s₁ hnext =>
      obtain ⟨hspent, -⟩ := next_error_iff.mp (congrArg Prod.fst hnext)
      obtain ⟨l, hl, hle⟩ := isSpent_iff.mp hspent
      refine iff_of_false (fun h => h err rfl) fun h => ?_
      exact absurd (h l hl) (by omega)

theorem drain_of_lt (hs : s.entries.Pairwise (·.1 < ·.1))
    (h : ∀ l ∈ s.readLimit s.table s.range, s.reads + s.left.length < l) :
    ∃ ending s', s.drain = (s.left, ending, s') ∧ ∀ err, ending ≠ .failed err := by
  have hn : s.left.length < s.entries.length + 1 := Nat.lt_succ_of_le (List.length_filter_le ..)
  have hok := (not_failed_iff hs hn).mpr h
  refine ⟨s.drain.2.1, s.drain.2.2, ?_, hok⟩
  rw [← readMany_of_not_failed hs hn rfl hok]
  rfl

theorem drain_of_limit_le {l : Nat} (hs : s.entries.Pairwise (·.1 < ·.1))
    (hl : s.readLimit s.table s.range = some l) (hle : l ≤ s.reads + s.left.length) :
    ∃ es err s', s.drain = (es, .failed err, s') := by
  have hn : s.left.length < s.entries.length + 1 := Nat.lt_succ_of_le (List.length_filter_le ..)
  have hfailed : ¬ ∀ err, s.drain.2.1 ≠ .failed err := fun hok =>
    absurd ((not_failed_iff hs hn).mp hok l hl) (Nat.not_lt_of_le hle)
  obtain ⟨err, herr⟩ := not_forall.mp hfailed
  exact ⟨s.drain.1, err, s.drain.2.2, by rw [← Decidable.not_not.mp herr]⟩

structure Reads (n : Nat) (s : Scanner) (es : List Entry) (ending : Ending) (s' : Scanner) :
    Prop where
  front : es <+: s.left
  enough : ending = .enough → es.length = n ∧ s.left = es ++ s'.left
  exhausted : ending = .exhausted → es = s.left
  failed : ∀ err, ending = .failed err → s.MayFail err
  continues : s.Continues s'

theorem Reads.cons {n : Nat} {s₁ s' : Scanner} {ending : Ending} (h : Reads n s₁ es ending s')
    (hleft : s.left = e :: s₁.left) (hs : s.Continues s₁) :
    Reads (n + 1) s (e :: es) ending s' where
  front := hleft ▸ List.cons_prefix_cons.mpr ⟨rfl, h.front⟩
  enough he := by
    obtain ⟨hlength, hrest⟩ := h.enough he
    exact ⟨congrArg _ hlength, by rw [hleft, hrest]; rfl⟩
  exhausted he := by rw [hleft, h.exhausted he]
  failed err he := (h.failed err he).of_continues hs
  continues := hs.trans h.continues

theorem reads_readMany (n : Nat) (hs : s.entries.Pairwise (·.1 < ·.1)) :
    Reads n s (s.readMany n).1 (s.readMany n).2.1 (s.readMany n).2.2 := by
  induction n generalizing s with
  | zero =>
    exact ⟨List.nil_prefix, fun _ => ⟨rfl, rfl⟩, fun h => (nomatch h), fun _ h => (nomatch h),
      rfl, rfl, rfl, rfl⟩
  | succ n ih =>
    have hcontinues := s.continues_next
    rw [readMany]
    split
    · next e s₁ hnext =>
      obtain ⟨rest, hleft, rfl, hentries⟩ := exists_of_next hs hnext
      rw [hnext] at hcontinues
      exact (ih (hentries ▸ hs)).cons hleft hcontinues
    · next s₁ hnext =>
      rw [hnext] at hcontinues
      have hleft := left_of_next_none hs (by rw [hnext])
      exact ⟨List.nil_prefix, fun h => (nomatch h), fun _ => hleft.symm, fun _ h => (nomatch h),
        hcontinues⟩
    · next err s₁ hnext =>
      have hfail := mayFail_of_next (by rw [hnext] : s.next.1 = .error err)
      rw [hnext] at hcontinues
      refine ⟨List.nil_prefix, fun h => (nomatch h), fun h => (nomatch h), fun err' h => ?_,
        hcontinues⟩
      obtain rfl := Ending.failed.inj h
      exact hfail

end Scanner

end ShardedSearch.Store
