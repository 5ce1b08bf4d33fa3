import Mathlib.Data.List.Perm.Subperm
import ShardedSearch.Proofs.DayIndex.Wanted
import ShardedSearch.Proofs.Index.PeriodForm
import ShardedSearch.Proofs.Query.Text
import ShardedSearch.Store.Basic

/-! # Scans of days

However often it jumps, the scan of a day adds up all wanted entries of the day. The entry that
it makes has the offsets of the wanted terms and can be read back from its byte form.
-/

namespace ShardedSearch.DayIndex

open Index (Bitmap PeriodEntry)
open Index.Layout (periodRow periodRow_inj ofPeriodRow? ofPeriodRow?_periodRow contains_fromTo_iff)
open Store (Entry Key Range ReadLimit Scanner Table)

variable {terms : Terms} {period field value term : String} {x : Entry} {xs : List Entry}
variable {e : PeriodEntry} {s : Scanner} {i : Nat}

/-! ### Adding up entries -/

def addEntry (terms : Terms) (e : PeriodEntry) (x : Entry) : PeriodEntry :=
  match ofPeriodRow? x.1.row with
  | some (_, value) => (addIfWanted terms e x.1 value x.2).getD e
  | none => e

def addAll (terms : Terms) (e : PeriodEntry) (xs : List Entry) : PeriodEntry :=
  xs.foldl (addEntry terms) e

def InPeriod (period : String) (xs : List Entry) : Prop :=
  ∀ x ∈ xs, ∃ value, x.1.row = periodRow period value

theorem InPeriod.tail (h : InPeriod period (x :: xs)) : InPeriod period xs := fun y hy =>
  h y (List.mem_cons_of_mem x hy)

theorem addAll_cons (hperiod : '\x00' ∉ period.toList) (hx : x.1.row = periodRow period value) :
    addAll terms e (x :: xs) =
      addAll terms ((addIfWanted terms e x.1 value x.2).getD e) xs := by
  rw [addAll, List.foldl_cons, addEntry, hx, ofPeriodRow?_periodRow hperiod]
  rfl

theorem addIfWanted_of_has (h : terms.has value x.1.family = true) :
    addIfWanted terms e x.1 value x.2 =
      some (e.insert (Query.equals x.1.family value).text (.ofBytes x.2)) := if_pos h

theorem addIfWanted_of_not_has (h : ¬ terms.has value x.1.family = true) :
    addIfWanted terms e x.1 value x.2 = none := if_neg h

theorem addAll_filter {p : Entry → Bool} (hperiod : '\x00' ∉ period.toList)
    (hrows : InPeriod period xs) (h : ∀ x ∈ xs, IsWanted terms period x.1 → p x = true) :
    addAll terms e (xs.filter p) = addAll terms e xs := by
  induction xs generalizing e with
  | nil => rfl
  | cons x xs ih =>
    obtain ⟨value, hvalue⟩ := hrows x List.mem_cons_self
    have ih := fun e => ih (e := e) hrows.tail fun y hy => h y (List.mem_cons_of_mem x hy)
    rw [addAll_cons hperiod hvalue, List.filter_cons]
    split
    · rw [addAll_cons hperiod hvalue, ih]
    · next hp =>
      have hnot : ¬ terms.has value x.1.family = true := fun hhas =>
        hp (h x List.mem_cons_self ((isWanted_iff hvalue).mpr hhas))
      rw [addIfWanted_of_not_has hnot, ih, Option.getD_none]

theorem addAll_of_not_wanted (hperiod : '\x00' ∉ period.toList) (hrows : InPeriod period xs)
    (h : ∀ x ∈ xs, ¬ IsWanted terms period x.1) : addAll terms e xs = e := by
  have hfilter : addAll terms e (xs.filter fun _ => false) = addAll terms e xs :=
    addAll_filter hperiod hrows fun x hx hw => absurd hw (h x hx)
  rw [← hfilter, List.filter_false]
  rfl

/-- A test that unions pass with any of their parts finds the bitmaps of the wanted entries at
their terms. -/
theorem any_get?_addAll {p : Bitmap → Bool} (hp : ∀ a b, p (a.union b) = (p a || p b))
    (hperiod : '\x00' ∉ period.toList) (hrows : InPeriod period xs) :
    ((addAll terms e xs).get? term).any p = true ↔ (e.get? term).any p = true ∨
      ∃ x ∈ xs, ∃ value, x.1.row = periodRow period value ∧
        terms.has value x.1.family = true ∧ term = (Query.equals x.1.family value).text ∧
          p (.ofBytes x.2) = true := by
  induction xs generalizing e with
  | nil => simp [addAll]
  | cons x xs ih =>
    obtain ⟨v, hv⟩ := hrows x List.mem_cons_self
    rw [addAll_cons hperiod hv, ih hrows.tail, List.exists_mem_cons_iff, ← or_assoc]
    apply or_congr_left
    simp only [hv, periodRow_inj, exists_eq_left']
    by_cases hhas : terms.has v x.1.family = true
    · simp [addIfWanted_of_has hhas, PeriodEntry.any_get?_insert hp, hhas]
    · simp [addIfWanted_of_not_has hhas, hhas]

/-- The key of an entry stays, and its terms are wanted and have short bitmaps. -/
structure IsOf (terms : Terms) (key : String) (n : Nat) (e : PeriodEntry) : Prop where
  key_eq : e.key = key
  wanted : ∀ {term b}, e.get? term = some b → term ∈ terms.wanted
  short : ∀ {term b}, e.get? term = some b → b.FitsIn n

theorem isOf_ofKey (terms : Terms) (key : String) (n : Nat) : IsOf terms key n (.ofKey key) where
  key_eq := rfl
  wanted h := by cases h
  short h := by cases h

theorem IsOf.insert {key : String} {n : Nat} {b : Bitmap} (h : IsOf terms key n e)
    (hterm : term ∈ terms.wanted) (hb : b.FitsIn n) : IsOf terms key n (e.insert term b) where
  key_eq := h.key_eq
  wanted {t c} hc := by
    rw [PeriodEntry.get?, PeriodEntry.insert, SortedMap.get?_insertWith] at hc
    split at hc
    · next heq => exact heq ▸ hterm
    · exact h.wanted hc
  short {t c} hc := by
    rw [PeriodEntry.get?, PeriodEntry.insert, SortedMap.get?_insertWith] at hc
    split at hc
    · obtain rfl := Option.some.inj hc
      cases hget : e.terms.get? term with
      | none => exact hb
      | some a => exact (h.short hget).union hb
    · exact h.short hc

theorem isOf_addAll {key : String} {n : Nat} (h : IsOf terms key n e)
    (hx : ∀ x ∈ xs, x.2.length ≤ n) : IsOf terms key n (addAll terms e xs) := by
  induction xs generalizing e with
  | nil => exact h
  | cons x xs ih =>
    refine ih ?_ fun y hy => hx y (List.mem_cons_of_mem x hy)
    unfold addEntry
    split
    · next value _ =>
      by_cases hhas : terms.has value x.1.family = true
      · rw [addIfWanted_of_has hhas]
        exact h.insert (Terms.text_mem_wanted hhas)
          (Bitmap.fitsIn_ofBytes (hx x List.mem_cons_self))
      · rwa [addIfWanted_of_not_has hhas]
    · exact h

/-! ### Reading on -/

/-- A jump leaves out nothing that adds up if nothing before its target is wanted. -/
theorem addAll_seek {target : Key} (hperiod : '\x00' ∉ period.toList)
    (hrows : InPeriod period s.left)
    (h : ∀ x ∈ s.left, IsWanted terms period x.1 → ¬ x.1 < target) :
    addAll terms e (s.seek target).left = addAll terms e s.left := by
  rcases Scanner.left_seek (s := s) target with hseek | hseek
  · rw [hseek]
  · rw [hseek]
    exact addAll_filter hperiod hrows fun x hx hw => decide_eq_true (h x hx hw)

theorem entry_readOn {n jumps : Nat} {r : Option PeriodEntry} (hp : terms.IsProper)
    (hperiod : '\x00' ∉ period.toList) (hs : s.entries.Pairwise (·.1 < ·.1))
    (hrows : InPeriod period s.left) (hn : s.left.length < n)
    (h : (readOn terms period n jumps s e).entry = .ok r) :
    r = PeriodEntry.orNone (addAll terms e s.left) := by
  induction n generalizing s e jumps with
  | zero => simp at hn
  | succ n ih =>
    rw [readOn] at h
    split at h
    · cases h
    · next s' hnext =>
      rw [Scanner.left_of_next_none hs (by rw [hnext])]
      exact (Except.ok.inj h).symm
    · next k bits s' hnext =>
      obtain ⟨xs, hleft, hrest, hentries⟩ := Scanner.exists_of_next hs hnext
      have hasc := hleft ▸ Scanner.ascending_left hs
      have hmin := (List.pairwise_cons.mp hasc).1
      rw [hleft] at hrows hn ⊢
      rw [← hentries] at hs
      obtain ⟨value, hvalue⟩ := hrows _ List.mem_cons_self
      have hrows' := hrows.tail
      rw [hvalue, ofPeriodRow?_periodRow hperiod] at h
      rw [addAll_cons hperiod hvalue]
      simp only at h ⊢
      have hlen : s'.left.length < n := by
        rw [hrest]
        exact Nat.lt_of_succ_lt_succ hn
      by_cases hhas : terms.has value k.family = true
      · rw [addIfWanted_of_has (x := (k, bits)) hhas] at h ⊢
        rw [← hrest]
        exact ih hs (hrest ▸ hrows') hlen h
      · rw [addIfWanted_of_not_has (x := (k, bits)) hhas] at h ⊢
        have hnot : terms.has value k.family = false := Bool.not_eq_true _ ▸ hhas
        simp only at h
        rw [Option.getD_none]
        split at h
        · next target htarget =>
          rw [← hrest] at hrows' hmin ⊢
          have hskip := addAll_seek (e := e) hperiod hrows' fun x hx hw =>
            not_lt_nextWanted hvalue hnot htarget hw (hmin x hx)
          have hsub := Scanner.sublist_left_seek (s := s') target
          rw [← hskip]
          exact ih (by rwa [Scanner.entries_seek]) (fun x hx => hrows' x (hsub.subset hx))
            (Nat.lt_of_le_of_lt hsub.length_le hlen) h
        · next hnone =>
          rw [addAll_of_not_wanted hperiod hrows' fun x hx hw =>
            not_lt_of_nextWanted?_eq_none hp hvalue hnot hnone hw (hmin x hx)]
          exact (Except.ok.inj h).symm

theorem exists_ok_readOn {n jumps : Nat} (h : s.Unlimited) :
    ∃ r, (readOn terms period n jumps s e).entry = .ok r := by
  induction n generalizing s e jumps with
  | zero => exact ⟨_, rfl⟩
  | succ n ih =>
    obtain ⟨o, ho, hrest⟩ := h.next
    rw [readOn]
    split
    · next hnext =>
      rw [hnext] at ho
      cases ho
    · exact ⟨_, rfl⟩
    · next k bits s' hnext =>
      rw [hnext] at hrest
      split
      · exact ih hrest
      · split
        · exact ih hrest
        · split
          · exact ih (hrest.seek _)
          · exact ⟨_, rfl⟩

/-! ### Days -/

def bitmapsAt (t : Table) (period field value : String) : List Bitmap :=
  (t.toList.filter fun x => x.1.row = periodRow period value ∧ x.1.family = field).map
    fun x => .ofBytes x.2

theorem mem_bitmapsAt {t : Table} {b : Bitmap} : b ∈ bitmapsAt t period field value ↔
    ∃ x ∈ t.toList, x.1.row = periodRow period value ∧ x.1.family = field ∧
      Bitmap.ofBytes x.2 = b := by
  simp only [bitmapsAt, List.mem_map, List.mem_filter, decide_eq_true_eq, and_assoc]

def hasTerm (t : Table) (period field value : String) (i : Nat) : Bool :=
  t.toList.any fun x => x.1.row = periodRow period value ∧ x.1.family = field ∧
    (Bitmap.ofBytes x.2).contains i

theorem hasTerm_iff {t : Table} : hasTerm t period field value i = true ↔
    ∃ x ∈ t.toList, x.1.row = periodRow period value ∧ x.1.family = field ∧
      (Bitmap.ofBytes x.2).contains i = true := by
  simp [hasTerm]

theorem hasTerm_eq_any {t : Table} : hasTerm t period field value i =
    (bitmapsAt t period field value).any (·.contains i) := by
  rw [Bool.eq_iff_iff, hasTerm_iff, List.any_eq_true]
  constructor
  · rintro ⟨x, hx, hrow, hfamily, hbit⟩
    exact ⟨_, mem_bitmapsAt.mpr ⟨x, hx, hrow, hfamily, rfl⟩, hbit⟩
  · rintro ⟨b, hb, hbit⟩
    obtain ⟨x, hx, hrow, hfamily, rfl⟩ := mem_bitmapsAt.mp hb
    exact ⟨x, hx, hrow, hfamily, hbit⟩

/-- Whether texts of terms, bitmaps and their number have lengths that 64 bits can tell, as all
have that are in memory. -/
structure FitsMemory (terms : Terms) (t : Table) : Prop where
  texts : ∀ term ∈ terms.wanted, term.utf8ByteSize < 2 ^ 64
  size : terms.wanted.size < 2 ^ 64
  values : ∀ x ∈ t.toList, x.2.length < 2 ^ 64

theorem IsOf.hasForm {n : Nat} {t : Table} (h : IsOf terms period n e) (hn : n < 2 ^ 64)
    (hperiod : period.utf8ByteSize < 2 ^ 64) (hfits : FitsMemory terms t) : e.HasForm where
  key := h.key_eq ▸ hperiod
  size := by
    have hnodup : (e.terms.toList.map (·.1)).Nodup :=
      (List.pairwise_map.mpr e.terms.ascending).imp KeyOrder.ne_of_lt
    have hsub : e.terms.toList.map (·.1) ⊆ terms.wanted.toList := by
      intro term hterm
      obtain ⟨⟨term, b⟩, hb, rfl⟩ := List.mem_map.mp hterm
      exact h.wanted (SortedMap.get?_eq_some_iff.mpr hb)
    have hle := (hnodup.subperm hsub).length_le
    rw [List.length_map] at hle
    exact Nat.lt_of_le_of_lt hle hfits.size
  terms x hx := by
    have hget := SortedMap.get?_eq_some_iff.mpr hx
    exact ⟨hfits.texts _ (h.wanted hget),
      Nat.lt_of_le_of_lt (h.short hget).length_toBytes_le hn⟩

/-- Entries of one period of a table, all that are wanted among them. -/
structure Selects (t : Table) (terms : Terms) (period : String) (xs : List Entry) : Prop where
  inPeriod : InPeriod period xs
  subset : ∀ x ∈ xs, x ∈ t.toList
  mem_of_wanted : ∀ x ∈ t.toList, IsWanted terms period x.1 → x ∈ xs

theorem Selects.any_get?_addAll {t : Table} {p : Bitmap → Bool}
    (h : Selects t terms period xs) (hp : ∀ a b, p (a.union b) = (p a || p b))
    (hperiod : '\x00' ∉ period.toList) (hhas : terms.has value field = true) :
    ((addAll terms (.ofKey period) xs).get? (Query.equals field value).text).any p =
      (bitmapsAt t period field value).any p := by
  rw [Bool.eq_iff_iff, DayIndex.any_get?_addAll hp hperiod h.inPeriod, List.any_eq_true]
  constructor
  · rintro (hfalse | ⟨x, hx, v, hrow, -, htext, hpass⟩)
    · cases hfalse
    · obtain ⟨rfl, rfl⟩ := Query.text_equals_injective htext
      exact ⟨_, mem_bitmapsAt.mpr ⟨x, h.subset x hx, hrow, rfl, rfl⟩, hpass⟩
  · rintro ⟨b, hb, hpass⟩
    obtain ⟨x, hx, hrow, rfl, rfl⟩ := mem_bitmapsAt.mp hb
    exact .inr ⟨x, h.mem_of_wanted x hx ⟨value, hrow, hhas⟩, value, hrow, hhas, rfl, hpass⟩

theorem Selects.hasOffset_addAll {t : Table} (h : Selects t terms period xs)
    (hperiod : '\x00' ∉ period.toList) (hhas : terms.has value field = true) (i : Nat) :
    (addAll terms (.ofKey period) xs).hasOffset (Query.equals field value).text i =
      hasTerm t period field value i := by
  rw [hasTerm_eq_any]
  exact h.any_get?_addAll (fun a b => Bitmap.contains_union a b i) hperiod hhas

variable {store : Store} {table day : String} {r : Option PeriodEntry}

def bitmapsOf (store : Store) (table : String) : Table := (store.tables.get? table).getD .empty

theorem exists_of_openScanner (h : store.openScanner table = .ok s) :
    s = .ofTable table (bitmapsOf store table) store.readLimit := by
  unfold Store.openScanner at h
  split at h
  · cases h
  · split at h
    · next t ht =>
      rw [bitmapsOf, ht]
      exact (Except.ok.inj h).symm
    · cases h

theorem selects_fromTo {t : Table} {start : Key} (hstart : firstWanted? terms day = some start) :
    Selects t terms day
      (t.toList.filter ((Range.fromTo start (periodRow day "")).contains ·.1)) := by
  obtain ⟨first, hfirst⟩ := exists_of_firstWanted? hstart
  have hmem : ∀ {x : Entry}, x ∈ t.toList.filter
      ((Range.fromTo start (periodRow day "")).contains ·.1) ↔
        x ∈ t.toList ∧ ¬ x.1 < start ∧ ∃ v, x.1.row = periodRow day v := by
    intro x
    rw [List.mem_filter, contains_fromTo_iff hfirst]
  exact ⟨fun x hx => (hmem.mp hx).2.2, fun x hx => (hmem.mp hx).1, fun x hx hw =>
    hmem.mpr ⟨hx, not_lt_firstWanted hstart hw, hw.imp fun _ h => h.1⟩⟩

theorem exists_selects_of_scanDay (hp : terms.IsProper) (hday : '\x00' ∉ day.toList)
    (h : (scanDay store table terms day).entry = .ok r) :
    ∃ xs, Selects (bitmapsOf store table) terms day xs ∧
      r = PeriodEntry.orNone (addAll terms (.ofKey day) xs) := by
  unfold scanDay at h
  split at h
  · next hnone =>
    refine ⟨[], ⟨nofun, nofun, fun x _ ⟨value, _, hhas⟩ => ?_⟩, (Except.ok.inj h).symm⟩
    rw [not_has_of_firstWanted?_eq_none hp hnone] at hhas
    cases hhas
  · next start hstart =>
    split at h
    · cases h
    · next s hopen =>
      obtain rfl := exists_of_openScanner hopen
      have hleft := Scanner.left_setRange table (bitmapsOf store table) store.readLimit
        (.fromTo start (periodRow day ""))
      have hselects := selects_fromTo (t := bitmapsOf store table) hstart
      rw [← hleft] at hselects
      refine ⟨_, hselects, ?_⟩
      exact entry_readOn hp hday (bitmapsOf store table).ascending hselects.inPeriod
        (Nat.lt_succ_of_le (List.length_filter_le ..)) h

/-- What a scan that does not fail makes of a day. -/
structure Scanned (t : Table) (terms : Terms) (day : String) (e : PeriodEntry) : Prop where
  hasOffset_eq : ∀ {field value}, terms.has value field = true → ∀ i,
    e.hasOffset (Query.equals field value).text i = hasTerm t day field value i
  isOf : ∀ {n}, (∀ x ∈ t.toList, x.2.length ≤ n) → IsOf terms day n e

theorem Selects.scanned_addAll {t : Table} (h : Selects t terms day xs)
    (hday : '\x00' ∉ day.toList) : Scanned t terms day (addAll terms (.ofKey day) xs) where
  hasOffset_eq := h.hasOffset_addAll hday
  isOf hn := isOf_addAll (isOf_ofKey ..) fun x hx => hn x (h.subset x hx)

theorem scanned_scanDay (hp : terms.IsProper) (hday : '\x00' ∉ day.toList)
    (h : (scanDay store table terms day).entry = .ok r) :
    ∃ e, r = PeriodEntry.orNone e ∧ Scanned (bitmapsOf store table) terms day e := by
  obtain ⟨xs, hxs, hr⟩ := exists_selects_of_scanDay hp hday h
  exact ⟨_, hr, hxs.scanned_addAll hday⟩

structure HasBitmaps (store : Store) (table : String) : Prop where
  isSome : (store.tables.get? table).isSome = true
  available : table ∉ store.unavailable
  unlimited : ∀ range, store.readLimit table (some range) = none

theorem HasBitmaps.openScanner (h : HasBitmaps store table) :
    store.openScanner table = .ok (.ofTable table (bitmapsOf store table) store.readLimit) := by
  obtain ⟨t, ht⟩ := Option.isSome_iff_exists.mp h.isSome
  rw [Store.openScanner, if_neg h.available, bitmapsOf, ht]
  rfl

theorem exists_ok_scanDay (h : HasBitmaps store table) :
    ∃ r, (scanDay store table terms day).entry = .ok r := by
  unfold scanDay
  split
  · exact ⟨_, rfl⟩
  · rw [h.openScanner]
    exact exists_ok_readOn (h.unlimited _)

end ShardedSearch.DayIndex
