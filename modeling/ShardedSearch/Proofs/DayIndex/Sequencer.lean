import ShardedSearch.DayIndex.Sequencer
import ShardedSearch.Proofs.Order.Collections

/-! # Results in the order of their numbers

A sequencer hands out its results in the order of their numbers, whatever the order in which
they arrive.
-/

namespace ShardedSearch.DayIndex.Sequencer

variable {α : Type} {s : Sequencer α} {e : Nat × α} {es arrivals : List (Nat × α)}
variable {due : Nat} {waiting : SortedMap Nat α}

/-- A sequencer with results that are not out, none of them before the one that is due. -/
structure Holds (s : Sequencer α) (es : List (Nat × α)) : Prop where
  ascending : es.Pairwise (·.1 < ·.1)
  perm : (s.waiting.toList ++ s.arrivals).Perm es
  due_le : ∀ e ∈ es, s.due ≤ e.1

theorem holds_ofArrivals (hasc : es.Pairwise (·.1 < ·.1)) (h : arrivals.Perm es) :
    (ofArrivals arrivals).Holds es :=
  ⟨hasc, h, fun _ _ => Nat.zero_le _⟩

theorem Holds.size_eq (h : s.Holds es) : s.size = es.length := by
  rw [← h.perm.length_eq, List.length_append]
  rfl

theorem Holds.of_perm {others : List (Nat × α)} (h : Holds ⟨due, waiting, arrivals⟩ es)
    (hperm : others.Perm arrivals) : Holds ⟨due, waiting, others⟩ es :=
  ⟨h.ascending, (hperm.append_left _).trans h.perm, h.due_le⟩

theorem Holds.of_due_le {earlier : Nat} (h : Holds ⟨due, waiting, arrivals⟩ es)
    (hle : earlier ≤ due) : Holds ⟨earlier, waiting, arrivals⟩ es :=
  ⟨h.ascending, h.perm, fun e he => Nat.le_trans hle (h.due_le e he)⟩

theorem Holds.tail {s' : Sequencer α} (h : s.Holds (e :: es)) (hdue : s'.due = e.1 + 1)
    (hperm : (s.waiting.toList ++ s.arrivals).Perm (e :: (s'.waiting.toList ++ s'.arrivals))) :
    s'.Holds es where
  ascending := (List.pairwise_cons.mp h.ascending).2
  perm := (hperm.symm.trans h.perm).cons_inv
  due_le x hx := hdue ▸ (List.pairwise_cons.mp h.ascending).1 x hx

theorem Holds.eq_of_get? {a : α} (h : Holds ⟨due, waiting, arrivals⟩ (e :: es))
    (ha : waiting.get? due = some a) : e = (due, a) := by
  have hmem : (due, a) ∈ e :: es :=
    h.perm.mem_iff.mp (List.mem_append_left _ (SortedMap.get?_eq_some_iff.mp ha))
  rcases List.mem_cons.mp hmem with heq | hes
  · exact heq.symm
  · have hlt : e.1 < due := (List.pairwise_cons.mp h.ascending).1 _ hes
    exact absurd (h.due_le e List.mem_cons_self) (Nat.not_le.mpr hlt)

theorem Holds.of_get? {a : α} (h : Holds ⟨due, waiting, arrivals⟩ (e :: es))
    (ha : waiting.get? due = some a) : Holds ⟨due + 1, waiting.erase due, arrivals⟩ es := by
  obtain rfl := h.eq_of_get? ha
  exact h.tail rfl ((SortedMap.toList_perm_erase ha).append_right arrivals)

theorem Holds.of_dueOf? {r : α × Sequencer α} (h : Holds ⟨due, waiting, arrivals⟩ (e :: es))
    (hr : dueOf? due waiting arrivals = some r) : r.1 = e.2 ∧ r.2.Holds es := by
  obtain ⟨a, ha, rfl⟩ := Option.map_eq_some_iff.mp hr
  exact ⟨congrArg Prod.snd (h.eq_of_get? ha).symm, h.of_get? ha⟩

theorem Holds.toList_eq (h : Holds ⟨due, waiting, []⟩ es) : waiting.toList = es := by
  have hperm := h.perm
  rw [List.append_nil] at hperm
  exact eq_of_mem_iff_of_ascending waiting.ascending h.ascending fun _ => hperm.mem_iff

theorem Holds.of_head? (h : Holds ⟨due, waiting, []⟩ (e :: es)) :
    Holds ⟨e.1 + 1, waiting.erase e.1, []⟩ es := by
  have hget : waiting.get? e.1 = some e.2 :=
    SortedMap.get?_eq_some_iff.mpr (h.toList_eq ▸ List.mem_cons_self)
  exact h.tail rfl ((SortedMap.toList_perm_erase hget).append_right [])

theorem Holds.insert {x : Nat × α} (h : Holds ⟨due, waiting, x :: arrivals⟩ es) :
    Holds ⟨due, waiting.insert x.1 x.2, arrivals⟩ es where
  ascending := h.ascending
  perm := by
    have hnew : waiting.get? x.1 = none := by
      cases hget : waiting.get? x.1 with
      | none => rfl
      | some a =>
        have hnodup := (List.pairwise_map.mpr h.ascending).imp Nat.ne_of_lt
        rw [← List.Nodup, ← (h.perm.map Prod.fst).nodup_iff, List.map_append] at hnodup
        have hmem : x.1 ∈ waiting.toList.map Prod.fst :=
          List.mem_map.mpr ⟨_, SortedMap.get?_eq_some_iff.mp hget, rfl⟩
        exact absurd rfl ((List.nodup_append.mp hnodup).2.2 _ hmem _ List.mem_cons_self)
    have hinsert := (SortedMap.toList_insert_perm (v := x.2) hnew).append_right arrivals
    exact hinsert.trans (List.perm_middle.symm.trans h.perm)
  due_le := h.due_le

theorem Holds.nextOf? (h : Holds ⟨due, waiting, arrivals⟩ (e :: es)) :
    ∃ s', nextOf? due waiting arrivals = some (e.2, s') ∧ s'.Holds es := by
  induction arrivals generalizing waiting with
  | nil =>
    rw [Sequencer.nextOf?]
    cases hdue : dueOf? due waiting [] with
    | some r =>
      obtain ⟨he, hr⟩ := h.of_dueOf? hdue
      exact ⟨r.2, by rw [← he]; rfl, hr⟩
    | none =>
      refine ⟨⟨e.1 + 1, waiting.erase e.1, []⟩, ?_, h.of_head?⟩
      rw [Option.none_or, lowestOf?, h.toList_eq]
      rfl
  | cons x arrivals ih =>
    rw [Sequencer.nextOf?]
    cases hdue : dueOf? due waiting (x :: arrivals) with
    | some r =>
      obtain ⟨he, hr⟩ := h.of_dueOf? hdue
      exact ⟨r.2, by rw [← he], hr⟩
    | none => exact ih h.insert

theorem Holds.nextOf?_eq_none (h : Holds ⟨due, waiting, arrivals⟩ []) :
    Sequencer.nextOf? due waiting arrivals = none := by
  obtain ⟨hwaiting, rfl⟩ := List.append_eq_nil_iff.mp h.perm.eq_nil
  have hget : waiting.get? due = none := by
    rw [SortedMap.get?_def, show waiting.toList = [] from hwaiting]
    rfl
  rw [Sequencer.nextOf?, dueOf?, hget, lowestOf?, show waiting.toList = [] from hwaiting]
  rfl

theorem take_of_holds {n : Nat} (h : s.Holds es) (hn : es.length ≤ n) :
    s.take n = es.map (·.2) := by
  induction n generalizing s es with
  | zero =>
    obtain rfl := List.eq_nil_of_length_eq_zero (Nat.le_zero.mp hn)
    rfl
  | succ n ih =>
    rw [take, next?]
    cases es with
    | nil => rw [h.nextOf?_eq_none]; rfl
    | cons e es =>
      obtain ⟨s', hs', hrest⟩ := h.nextOf?
      rw [hs']
      simp only [List.map_cons, ih hrest (Nat.le_of_succ_le_succ hn)]

/-- All results are handed out, in the order of their numbers. -/
theorem drain_of_holds (h : s.Holds es) : s.drain = es.map (·.2) :=
  take_of_holds h (Nat.le_of_eq h.size_eq.symm)

end ShardedSearch.DayIndex.Sequencer
