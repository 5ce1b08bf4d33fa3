import Mathlib.Tactic.Common
import ShardedSearch.Store.Range
import ShardedSearch.Text.Separator

/-! # Order of texts

How the order of texts goes with a common start, with the least text above all of a start,
and with a separator below every other character.
-/

namespace ShardedSearch

namespace Text

theorem char_lt_iff {c d : Char} : c < d ↔ c.toNat < d.toNat := by
  rw [Char.lt_def, UInt32.lt_iff_toNat_lt]
  rfl

theorem char_eq_iff {c d : Char} : c = d ↔ c.toNat = d.toNat := by
  rw [← Char.val_inj, ← UInt32.toNat_inj]
  rfl

theorem null_lt {c : Char} (h : c ≠ '\x00') : '\x00' < c := by
  rw [char_lt_iff]
  exact Nat.pos_of_ne_zero fun h0 => h (char_eq_iff.mpr h0)

theorem null_not_mem_takeWhile (cs : List Char) : '\x00' ∉ cs.takeWhile (· ≠ '\x00') := by
  induction cs with
  | nil => simp
  | cons c cs ih =>
    rw [List.takeWhile_cons]
    split
    · next hc =>
      rw [List.mem_cons, not_or]
      exact ⟨fun h => by simp [← h] at hc, ih⟩
    · simp

/-- Against a text without the separator only what comes before it counts. -/
theorem takeWhile_lt_iff {cs ps : List Char} (hp : '\x00' ∉ ps) :
    cs.takeWhile (· ≠ '\x00') < ps ↔ cs < ps := by
  induction cs generalizing ps with
  | nil => simp
  | cons c cs ih =>
    cases ps with
    | nil => simp
    | cons p ps =>
      rw [List.mem_cons, not_or] at hp
      by_cases hc : c = '\x00'
      · have hlt : '\x00' < p := null_lt fun h => hp.1 h.symm
        simp [hc, List.cons_lt_cons_iff, hlt]
      · rw [List.takeWhile_cons, if_pos (by simpa using hc), List.cons_lt_cons_iff,
          List.cons_lt_cons_iff, ih hp.2]

theorem prefix_takeWhile_iff {cs ps : List Char} (hp : '\x00' ∉ ps) :
    ps <+: cs.takeWhile (· ≠ '\x00') ↔ ps <+: cs := by
  induction cs generalizing ps with
  | nil => simp
  | cons c cs ih =>
    cases ps with
    | nil => simp
    | cons p ps =>
      rw [List.mem_cons, not_or] at hp
      by_cases hc : c = '\x00'
      · have hne : p ≠ '\x00' := fun h => hp.1 h.symm
        simp [hc, List.cons_prefix_cons, hne]
      · rw [List.takeWhile_cons, if_pos (by simpa using hc), List.cons_prefix_cons,
          List.cons_prefix_cons, ih hp.2]

theorem before_toList (sep : Char) (s : String) :
    (before sep s).toList = s.toList.takeWhile (· ≠ sep) := String.toList_ofList

theorem null_not_mem_before (s : String) : '\x00' ∉ (before '\x00' s).toList := by
  rw [before_toList]
  exact null_not_mem_takeWhile s.toList

theorem before_lt_iff {s p : String} (hp : '\x00' ∉ p.toList) : before '\x00' s < p ↔ s < p := by
  rw [String.lt_iff, String.lt_iff, before_toList, takeWhile_lt_iff hp]

theorem before_le (s : String) : ¬ s < before '\x00' s := by
  rw [← before_lt_iff (null_not_mem_before s)]
  exact String.lt_irrefl _

theorem not_before_lt {s t : String} (h : s < t) : ¬ before '\x00' t < before '\x00' s := by
  rw [before_lt_iff (null_not_mem_before s)]
  exact fun ht => before_le s (String.lt_trans h ht)

theorem append_lt_append_iff {cs ds xs ys : List Char} (h : cs.length = ds.length) :
    cs ++ xs < ds ++ ys ↔ cs < ds ∨ cs = ds ∧ xs < ys := by
  induction cs generalizing ds with
  | nil =>
    obtain rfl := List.eq_nil_of_length_eq_zero h.symm
    simp
  | cons c cs ih =>
    cases ds with
    | nil => simp at h
    | cons d ds =>
      rw [List.cons_append, List.cons_append, List.cons_lt_cons_iff, List.cons_lt_cons_iff,
        ih (Nat.succ.inj h), List.cons.injEq]
      tauto

theorem not_lt_empty (s : String) : ¬ s < "" := by
  rw [String.lt_iff]
  exact List.not_lt_nil _

theorem append_lt_append_left_iff {p s t : String} : p ++ s < p ++ t ↔ s < t := by
  rw [String.lt_iff, String.lt_iff, String.toList_append, String.toList_append,
    append_lt_append_iff rfl]
  exact or_iff_right (List.lt_irrefl _) |>.trans (and_iff_right rfl)

theorem lt_append_null_iff {s t : String} : s < t ++ "\x00" ↔ ¬ t < s := by
  have h : ∀ cs ds : List Char, cs < ds ++ ['\x00'] ↔ ¬ ds < cs := by
    intro cs
    induction cs with
    | nil => intro ds; cases ds <;> simp
    | cons c cs ih =>
      intro ds
      cases ds with
      | nil =>
        have hc : ¬ c < '\x00' := fun h => Nat.not_lt_zero _ (char_lt_iff.mp h)
        simp [List.cons_lt_cons_iff, hc]
      | cons d ds =>
        rw [List.cons_append, List.cons_lt_cons_iff, List.cons_lt_cons_iff, ih, char_lt_iff,
          char_lt_iff, char_eq_iff, char_eq_iff]
        rcases Nat.lt_trichotomy c.toNat d.toNat with hlt | heq | hlt
        · simp [hlt, Nat.lt_asymm hlt, Nat.ne_of_gt hlt]
        · simp [heq]
        · simp [hlt, Nat.lt_asymm hlt, Nat.ne_of_gt hlt]
  rw [String.lt_iff, String.lt_iff, String.toList_append]
  exact h s.toList t.toList

end Text

namespace Store

open Text

theorem lt_nextChar_iff {c d x : Char} (h : nextChar? c = some d) : x < d ↔ x < c ∨ x = c := by
  have hc : c.toNat < 0xD800 ∨ (0xDFFF < c.toNat ∧ c.toNat < 0x110000) := c.valid
  have hx : x.toNat < 0xD800 ∨ (0xDFFF < x.toNat ∧ x.toNat < 0x110000) := x.valid
  have hd : d.toNat = if c.toNat = 0xD7FF then 0xE000 else c.toNat + 1 := by
    unfold nextChar? at h
    split at h
    · obtain rfl := Option.some.inj h
      rw [if_pos (by assumption)]
      rfl
    · split at h
      · simp at h
      · next hne hmax =>
        have hv : (c.toNat + 1).isValidChar := by
          unfold Nat.isValidChar
          omega
        obtain rfl := Option.some.inj h
        rw [if_neg hne, Char.ofNat, dif_pos hv]
        rfl
  rw [char_lt_iff, char_lt_iff, char_eq_iff, hd]
  split <;> omega

theorem nextChar?_eq_none {c x : Char} (h : nextChar? c = none) : x < c ∨ x = c := by
  have hx : x.toNat < 0xD800 ∨ (0xDFFF < x.toNat ∧ x.toNat < 0x110000) := x.valid
  rw [char_lt_iff, char_eq_iff]
  unfold nextChar? at h
  split at h
  · simp at h
  · split at h
    · omega
    · simp at h

theorem lt_or_prefix_of_aboveStart?_eq_none {ps : List Char} (h : aboveStart? ps = none)
    (cs : List Char) : cs < ps ∨ ps <+: cs := by
  induction ps generalizing cs with
  | nil => exact .inr List.nil_prefix
  | cons p ps ih =>
    rw [aboveStart?] at h
    cases ha : aboveStart? ps with
    | some b => simp [ha] at h
    | none =>
      have hp : nextChar? p = none := by simpa [ha] using h
      cases cs with
      | nil => simp
      | cons c cs =>
        rw [List.cons_lt_cons_iff, List.cons_prefix_cons]
        rcases nextChar?_eq_none (x := c) hp with hc | rfl
        · exact .inl (.inl hc)
        · exact (ih ha cs).imp (fun h => .inr ⟨rfl, h⟩) fun h => ⟨rfl, h⟩

/-- The texts below the least one above a start are those below the start or with it. -/
theorem lt_aboveStart_iff {ps bs cs : List Char} (h : aboveStart? ps = some bs) :
    cs < bs ↔ cs < ps ∨ ps <+: cs := by
  induction ps generalizing bs cs with
  | nil => simp [aboveStart?] at h
  | cons p ps ih =>
    rw [aboveStart?] at h
    cases ha : aboveStart? ps with
    | some b =>
      rw [ha] at h
      obtain rfl := Option.some.inj h
      cases cs with
      | nil => simp
      | cons c cs =>
        rw [List.cons_lt_cons_iff, List.cons_lt_cons_iff, List.cons_prefix_cons, ih ha]
        constructor
        · rintro (hlt | ⟨rfl, hlt | hpre⟩)
          · exact .inl (.inl hlt)
          · exact .inl (.inr ⟨rfl, hlt⟩)
          · exact .inr ⟨rfl, hpre⟩
        · rintro ((hlt | ⟨rfl, hlt⟩) | ⟨rfl, hpre⟩)
          · exact .inl hlt
          · exact .inr ⟨rfl, .inl hlt⟩
          · exact .inr ⟨rfl, .inr hpre⟩
    | none =>
      rw [ha] at h
      obtain ⟨d, hd, rfl⟩ := Option.map_eq_some_iff.mp h
      cases cs with
      | nil => simp
      | cons c cs =>
        have hall := lt_or_prefix_of_aboveStart?_eq_none ha cs
        rw [List.cons_lt_cons_iff, List.cons_lt_cons_iff, List.cons_prefix_cons,
          lt_nextChar_iff hd]
        constructor
        · rintro ((h | rfl) | ⟨-, h⟩)
          · exact .inl (.inl h)
          · exact hall.imp (fun h => .inr ⟨rfl, h⟩) fun h => ⟨rfl, h⟩
          · exact absurd h (List.not_lt_nil cs)
        · rintro ((h | ⟨rfl, -⟩) | ⟨rfl, -⟩)
          · exact .inl (.inl h)
          · exact .inl (.inr rfl)
          · exact .inl (.inr rfl)

theorem lt_rowAbove_iff {start above s : String} (h : rowAbove? start = some above) :
    s < above ↔ s < start ∨ start.toList <+: s.toList := by
  obtain ⟨bs, hb, rfl⟩ := Option.map_eq_some_iff.mp h
  rw [String.lt_iff, String.lt_iff, String.toList_ofList]
  exact lt_aboveStart_iff hb

end Store

end ShardedSearch
