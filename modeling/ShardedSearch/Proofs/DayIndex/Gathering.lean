import ShardedSearch.Proofs.DayIndex.YearScan

/-! # What scans gather

A scan that jumps from one wanted term to the next gathers the same as one of all rows and
families at once: of each wanted term that a table has in the period, the union of its bitmaps.
-/

namespace ShardedSearch.DayIndex

open Index (Bitmap PeriodEntry)
open Index.Layout (periodRow periodRow_inj)
open Store (Entry Table)

variable {t : Table} {terms : Terms} {period field value term : String} {xs : List Entry}
variable {e e' : PeriodEntry} {store : Store} {table : String} {i : Nat}

/-- The entry of a period with the union of all bitmaps of each wanted term that a table has in
that period, and with no other terms. -/
structure Gathers (t : Table) (terms : Terms) (period : String) (e : PeriodEntry) : Prop where
  key_eq : e.key = period
  get?_eq : ∀ {field value}, terms.has value field = true →
    e.get? (Query.equals field value).text =
      match bitmapsAt t period field value with
      | [] => none
      | b :: bs => some ((b :: bs).foldl Bitmap.union .empty)
  exists_wanted : ∀ {term b}, e.get? term = some b →
    ∃ field value, terms.has value field = true ∧ term = (Query.equals field value).text

theorem Gathers.unique (h : Gathers t terms period e) (h' : Gathers t terms period e') :
    e = e' := by
  have hget : ∀ term, e.terms.get? term = e'.terms.get? term := by
    intro term
    by_cases hterm : ∃ field value, terms.has value field = true ∧
      term = (Query.equals field value).text
    · obtain ⟨field, value, hhas, rfl⟩ := hterm
      exact (h.get?_eq hhas).trans (h'.get?_eq hhas).symm
    · have hnone : ∀ {e}, Gathers t terms period e → e.terms.get? term = none := fun h =>
        Option.eq_none_iff_forall_ne_some.mpr fun b hb => hterm (h.exists_wanted hb)
      rw [hnone h, hnone h']
  have hkey := h.key_eq.trans h'.key_eq.symm
  have hterms := SortedMap.ext_get? hget
  cases e
  cases e'
  exact congrArg₂ PeriodEntry.mk hkey hterms

/-! ### Adding up -/

theorem key_addAll : (addAll terms e xs).key = e.key := by
  induction xs generalizing e with
  | nil => rfl
  | cons x xs ih =>
    refine (ih (e := addEntry terms e x)).trans ?_
    unfold addEntry
    split
    · unfold addIfWanted
      split <;> rfl
    · rfl

/-- Bitmaps are told apart by tests that unions pass with any of their parts. -/
theorem eq_foldl_union {o : Option Bitmap} {bs : List Bitmap} :
    (∀ p : Bitmap → Bool, (∀ a b, p (a.union b) = (p a || p b)) → o.any p = bs.any p) →
      o = match bs with
        | [] => none
        | b :: bs => some ((b :: bs).foldl Bitmap.union .empty) := by
  intro h
  have hpresent := h (fun _ => true) fun _ _ => rfl
  cases bs with
  | nil =>
    cases o with
    | none => rfl
    | some c => cases hpresent
  | cons b bs =>
    cases o with
    | none => cases hpresent
    | some c =>
      refine congrArg some (Bitmap.ext_contains fun i => ?_)
      rw [contains_foldl_union, Bitmap.contains_empty, Bool.false_or]
      exact h (·.contains i) fun a b => Bitmap.contains_union a b i

theorem Selects.gathers (h : Selects t terms period xs) (hperiod : '\x00' ∉ period.toList) :
    Gathers t terms period (addAll terms (.ofKey period) xs) where
  key_eq := key_addAll
  get?_eq hhas := eq_foldl_union fun _ hp => h.any_get?_addAll hp hperiod hhas
  exists_wanted {term b} hb := by
    have hany : ((addAll terms (.ofKey period) xs).get? term).any (fun _ => true) = true :=
      (Option.any_eq_true ..).mpr ⟨b, hb, rfl⟩
    rw [DayIndex.any_get?_addAll (fun _ _ => rfl) hperiod h.inPeriod] at hany
    rcases hany with hfalse | ⟨x, -, v, -, hhas, htext, -⟩
    · cases hfalse
    · exact ⟨_, v, hhas, htext⟩

theorem Gathers.hasOffset_eq (h : Gathers t terms period e)
    (hhas : terms.has value field = true) :
    e.hasOffset (Query.equals field value).text i =
      (bitmapsAt t period field value).any (·.contains i) := by
  rw [PeriodEntry.hasOffset, h.get?_eq hhas]
  cases bitmapsAt t period field value with
  | nil => rfl
  | cons b bs =>
    simp only [Option.any_some]
    rw [contains_foldl_union, Bitmap.contains_empty, Bool.false_or]

theorem Gathers.isEmpty_iff (h : Gathers t terms period e) : e.isEmpty = true ↔
    ∀ field value, terms.has value field = true →
      ∀ b ∈ bitmapsAt t period field value, b.isEmpty = true := by
  rw [PeriodEntry.isEmpty_iff]
  constructor
  · intro hempty field value hhas b hb
    refine Bitmap.isEmpty_iff.mpr fun i => Bool.eq_false_iff.mpr fun hi => ?_
    have hbit := hempty (Query.equals field value).text i
    rw [h.hasOffset_eq hhas] at hbit
    exact Bool.eq_false_iff.mp hbit (List.any_eq_true.mpr ⟨b, hb, hi⟩)
  · intro hempty term i
    refine Bool.eq_false_iff.mpr fun hi => ?_
    obtain ⟨b, hb, -⟩ := PeriodEntry.hasOffset_iff.mp hi
    obtain ⟨field, value, hhas, rfl⟩ := h.exists_wanted hb
    rw [h.hasOffset_eq hhas] at hi
    obtain ⟨b, hb, hbit⟩ := List.any_eq_true.mp hi
    exact Bool.eq_false_iff.mp (Bitmap.isEmpty_iff.mp (hempty field value hhas b hb) i) hbit

/-! ### Scans -/

theorem orNone_eq_none_iff : PeriodEntry.orNone e = none ↔ e.isEmpty = true := by
  unfold PeriodEntry.orNone
  split <;> simp [*]

theorem eq_of_orNone_eq_some (h : PeriodEntry.orNone e = some e') : e' = e := by
  unfold PeriodEntry.orNone at h
  split at h
  · cases h
  · exact (Option.some.inj h).symm

/-- The scan of a day gathers all wanted terms, and finds nothing where none of them has an
offset. The scan of a year of that name makes the same of the table. -/
theorem scans_gather (hp : terms.IsProper) (hperiod : '\x00' ∉ period.toList)
    (hbits : HasBitmaps store table) :
    ∃ r, (scanDay store table terms period).entry = .ok r ∧
      (∀ e, r = some e → Gathers (bitmapsOf store table) terms period e) ∧
      (r = none ↔ ∀ field value, terms.has value field = true →
        ∀ b ∈ bitmapsAt (bitmapsOf store table) period field value, b.isEmpty = true) ∧
      ∀ year : Int, toString year = period → scanYear store table terms year = .ok r := by
  obtain ⟨r, hr⟩ : ∃ r, (scanDay store table terms period).entry = .ok r :=
    exists_ok_scanDay hbits
  obtain ⟨xs, hxs, rfl⟩ := exists_selects_of_scanDay hp hperiod hr
  have hgathers := hxs.gathers hperiod
  refine ⟨_, hr, fun e he => ?_, ?_, ?_⟩
  · rw [eq_of_orNone_eq_some he]
    exact hgathers
  · rw [orNone_eq_none_iff, hgathers.isEmpty_iff]
  · rintro year rfl
    obtain ⟨r, hyear⟩ : ∃ r, scanYear store table terms year = .ok r := exists_ok_scanYear hbits
    obtain ⟨ys, hys, rfl⟩ := exists_selects_of_scanYear hyear
    rw [hyear, (hys.gathers hperiod).unique hgathers]

/-- A year with two bitmaps of one term, an unwanted field behind them, and a value that has the
separator in it. -/
def separatedYear : Table := .ofList
  [(⟨periodRow "2024" "a", "A", "u"⟩, [1]), (⟨periodRow "2024" "a", "A", "v"⟩, [8]),
    (⟨periodRow "2024" "a", "B", "u"⟩, [2]), (⟨periodRow "2024" "a\x00b", "B", "u"⟩, [4])]

def separatedStore : Store := { Store.empty with tables := .ofList [("bitmaps", separatedYear)] }

def separatedTerms : Terms :=
  [("A", "a"), ("B", "a\x00b")].foldl (fun terms p => terms.add p.1 p.2) .empty

theorem scans_gather_separatedYear :
    ∃ e, (scanDay separatedStore "bitmaps" separatedTerms "2024").entry = .ok (some e) ∧
      scanYear separatedStore "bitmaps" separatedTerms 2024 = .ok (some e) ∧
      e.get? (Query.equals "A" "a").text = some (.ofList [0, 3]) ∧
      e.get? (Query.equals "B" "a\x00b").text = some (.ofList [2]) := by
  have hp : separatedTerms.IsProper := Terms.isProper_foldl_add _ nofun
  have hbits : HasBitmaps separatedStore "bitmaps" :=
    ⟨by decide +kernel, by decide, fun _ => rfl⟩
  have ha : bitmapsAt (bitmapsOf separatedStore "bitmaps") "2024" "A" "a" = [⟨1⟩, ⟨8⟩] := by
    decide +kernel
  have hb : bitmapsAt (bitmapsOf separatedStore "bitmaps") "2024" "B" "a\x00b" = [⟨4⟩] := by
    decide +kernel
  have hhas : separatedTerms.has "a" "A" = true ∧ separatedTerms.has "a\x00b" "B" = true := by
    decide +kernel
  have hperiod : '\x00' ∉ "2024".toList := by decide
  obtain ⟨r, hday, hgathers, hnone, hyear⟩ := scans_gather hp hperiod hbits
  cases r with
  | none =>
    have hempty := hnone.mp rfl "A" "a" hhas.1 ⟨1⟩ (ha ▸ List.mem_cons_self)
    exact absurd hempty (by decide)
  | some e =>
    have hgathers := hgathers e rfl
    refine ⟨e, hday, hyear 2024 (by decide), ?_, ?_⟩
    · rw [hgathers.get?_eq hhas.1, ha]
      rfl
    · rw [hgathers.get?_eq hhas.2, hb]
      rfl

end ShardedSearch.DayIndex
