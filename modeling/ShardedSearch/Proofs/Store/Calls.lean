import ShardedSearch.Proofs.Store.Scanning

/-! # Reads and seeks on one scanner

Reads and seeks may alternate in any order. Up to the first read that finds nothing, each
returns the least wanted entry above all that was returned and not below what was sought.
A read that finds nothing moves the scanner onto the end of its range; it stays there for
good unless the end is included and the table has an entry at it.
-/

namespace ShardedSearch.Store.Scanner

variable {t : Table} {s s' : Scanner} {r : Range} {e : Entry} {k stop : Key}

/-! ### Calls and what they show -/

inductive Call where
  | seek (key : Key)
  | next

inductive Event where
  | sought (key : Key)
  | read (answer : Except StoreError (Option Entry))
deriving DecidableEq

def call : Call → Scanner → Event × Scanner
  | .seek k, s => (.sought k, s.seek k)
  | .next, s => (.read s.next.1, s.next.2)

def events : List Call → Scanner → List Event
  | [], _ => []
  | c :: cs, s => (s.call c).1 :: events cs (s.call c).2

/-- The scanners that a table has opened, whatever they have been used for since. -/
inductive IsOpened (t : Table) : Scanner → Prop
  | ofTable (name : String) : IsOpened t (ofTable name t fun _ _ => none)
  | setRange {s : Scanner} (r : Range) : IsOpened t s → IsOpened t (s.setRange r)
  | fetchFamily {s : Scanner} (family : String) : IsOpened t s → IsOpened t (s.fetchFamily family)
  | addFilter {s s' : Scanner} {name : String} {options : SortedMap String String} :
      s.addFilter name options = .ok s' → IsOpened t s → IsOpened t s'
  | call {s : Scanner} (c : Call) : IsOpened t s → IsOpened t (s.call c).2

theorem exists_call_eq (c : Call) (s : Scanner) :
    ∃ p n, (s.call c).2 = { s with position := p, reads := n } := by
  cases c with
  | seek k =>
    simp only [call, seek]
    split
    · exact ⟨s.position, s.reads, rfl⟩
    · split
      · exact ⟨s.position, s.reads, rfl⟩
      · exact ⟨some (.at k), s.reads, rfl⟩
  | next =>
    simp only [call, next]
    split
    · exact ⟨s.position, s.reads + 1, rfl⟩
    · unfold move
      split
      · next e _ => exact ⟨some (.past e.1), s.reads + 1, rfl⟩
      · split
        · next stop _ => exact ⟨some (.at stop), s.reads + 1, rfl⟩
        · exact ⟨s.position, s.reads + 1, rfl⟩

theorem exists_addFilter_eq {name : String} {options : SortedMap String String}
    (h : s.addFilter name options = .ok s') : ∃ types, s' = { s with datatypes := some types } := by
  unfold addFilter at h
  split at h
  · cases h
  · split at h
    · exact ⟨_, (Except.ok.inj h).symm⟩
    · cases h

theorem IsOpened.eq (hs : s.IsOpened t) :
    s.entries = t.toList ∧ s.readLimit = fun _ _ => none := by
  induction hs with
  | ofTable name => exact ⟨rfl, rfl⟩
  | setRange r _ ih => exact ih
  | fetchFamily family _ ih => exact ih
  | @addFilter s _ _ _ h _ ih =>
    obtain ⟨types, rfl⟩ := exists_addFilter_eq h
    exact ih
  | @call s c _ ih =>
    obtain ⟨p, n, hc⟩ := exists_call_eq c s
    rw [hc]
    exact ih

/-- A scanner in key order that answers every read. -/
structure Answers (s : Scanner) : Prop where
  ascending : s.entries.Pairwise (·.1 < ·.1)
  unlimited : s.Unlimited

theorem IsOpened.answers (hs : s.IsOpened t) : s.Answers where
  ascending := hs.eq.1 ▸ t.ascending
  unlimited := by rw [Unlimited, hs.eq.2]

theorem Answers.call (hs : s.Answers) (c : Call) : (s.call c).2.Answers := by
  obtain ⟨p, n, hc⟩ := exists_call_eq c s
  rw [hc]
  exact ⟨hs.ascending, hs.unlimited⟩

theorem Answers.next (hs : s.Answers) : s.next =
    (.ok s.left.head?, move { s with reads := s.reads + 1 } s.left.head?) := by
  rw [next_of_unlimited hs.unlimited, head?_eq hs.ascending]

/-! ### Up to the first read that finds nothing -/

/-- Whether what was shown leaves a key to be returned. -/
def Event.admits (k : Key) : Event → Bool
  | .sought l => ¬ k < l
  | .read (.ok (some e)) => e.1 < k
  | .read _ => true

def InRange (s : Scanner) : Prop := ∀ r ∈ s.range, ∀ p ∈ s.position, r.isAfter p.key = false

theorem not_lt_of_admits {p : Position} (h : p.admits k = true) : ¬ k < p.key := by
  cases p with
  | «at» l => exact of_decide_eq_true h
  | past l => exact fun hl => KeyOrder.irrefl _ (KeyOrder.trans (of_decide_eq_true h) hl)

theorem isAfter_of_reaches (hs : s.InRange) (hr : r ∈ s.range) (h : s.reaches k = true) :
    r.isAfter k = false := by
  rw [Option.mem_def] at hr
  cases hp : s.position with
  | none => simpa only [reaches, hp, hr, Bool.not_eq_true'] using h
  | some p =>
    have hadmits : p.admits k = true := by simpa only [reaches, hp] using h
    refine Bool.eq_false_iff.mpr fun ha => ?_
    have hkey := hs r hr p hp
    rcases KeyOrder.lt_or_eq_of_not_lt (not_lt_of_admits hadmits) with hlt | rfl
    · rw [Range.isAfter_of_lt ha hlt] at hkey
      cases hkey
    · rw [ha] at hkey
      cases hkey

theorem reaches_of_mem_left (h : e ∈ s.left) : s.reaches e.1 = true :=
  (Bool.and_eq_true_iff.mp (List.mem_filter.mp h).2).1

/-- A seek is ignored before the range and behind the scanner. -/
theorem seek_cases (s : Scanner) (k : Key) :
    s.seek k = s ∧ (∃ r ∈ s.range, r.isAfter k = true) ∨
    s.seek k = s ∧ (∃ p ∈ s.position, ¬ p.key < k) ∨
    s.seek k = { s with position := some (.at k) } ∧ ∀ r ∈ s.range, r.isAfter k = false := by
  unfold seek
  split
  · next h =>
    obtain ⟨hsome, hafter⟩ := (Option.any_eq_true_iff_get _ _).mp h
    exact .inl ⟨rfl, _, Option.get_mem hsome, hafter⟩
  · next hrange =>
    split
    · next h =>
      obtain ⟨hsome, hbehind⟩ := (Option.any_eq_true_iff_get _ _).mp h
      exact .inr (.inl ⟨rfl, _, Option.get_mem hsome, of_decide_eq_true hbehind⟩)
    · refine .inr (.inr ⟨rfl, fun r hr => Bool.eq_false_iff.mpr fun hafter => hrange ?_⟩)
      rw [Option.mem_def.mp hr]
      exact hafter

theorem left_seek_of_inRange (hs : s.InRange) (k : Key) :
    (s.seek k).left = s.left.filter fun e => ¬ e.1 < k := by
  rcases left_seek (s := s) k with h | h
  · rw [h]
    refine (List.filter_eq_self.mpr fun e he => decide_eq_true (p := ¬ e.1 < k) fun hlt => ?_).symm
    have hreaches := reaches_of_mem_left he
    rcases seek_cases s k with ⟨-, r, hr, hafter⟩ | ⟨-, p, hp, hbehind⟩ | ⟨hmoved, -⟩
    · have hnot := isAfter_of_reaches hs hr hreaches
      rw [Range.isAfter_of_lt hafter hlt] at hnot
      cases hnot
    · have hadmits : p.admits e.1 = true := by
        simpa only [reaches, Option.mem_def.mp hp] using hreaches
      rcases KeyOrder.lt_or_eq_of_not_lt hbehind with h | rfl
      · exact not_lt_of_admits hadmits (KeyOrder.trans hlt h)
      · exact not_lt_of_admits hadmits hlt
    · rw [← h, hmoved] at he
      exact of_decide_eq_true (reaches_of_mem_left he) hlt
  · exact h

theorem InRange.seek (hs : s.InRange) (k : Key) : (s.seek k).InRange := by
  rcases seek_cases s k with ⟨h, -⟩ | ⟨h, -⟩ | ⟨h, hrange⟩
  · rwa [h]
  · rwa [h]
  · rw [h]
    intro r hr p hp
    obtain rfl : Position.at k = p := Option.some.inj hp
    exact hrange r hr

/-- What a call that does not find nothing shows is all that it leaves out. -/
theorem left_call (hs : s.Answers) (hin : s.InRange) (c : Call)
    (hc : (s.call c).1 ≠ .read (.ok none)) :
    (s.call c).2.left = s.left.filter (fun e => (s.call c).1.admits e.1) ∧
      (s.call c).2.InRange := by
  cases c with
  | seek k => exact ⟨left_seek_of_inRange hin k, hin.seek k⟩
  | next =>
    rw [call, hs.next] at hc ⊢
    cases hleft : s.left with
    | nil => simp [hleft] at hc
    | cons e es =>
      rw [List.head?_cons]
      have hreaches := reaches_of_mem_left (hleft ▸ List.mem_cons_self : e ∈ s.left)
      obtain ⟨hes, -⟩ := List.pairwise_cons.mp (hleft ▸ ascending_left hs.ascending)
      have hself : ¬ e.1 < e.1 := KeyOrder.irrefl _
      constructor
      · have hbehind : es.filter (fun x => Event.admits x.1 (.read (.ok (some e)))) = es :=
          List.filter_eq_self.mpr fun x hx => decide_eq_true (hes x hx)
        rw [List.filter_cons, if_neg (by simpa [Event.admits] using hself), hbehind]
        exact left_past hs.ascending hleft
      · intro r hr p hp
        obtain rfl : Position.past e.1 = p := Option.some.inj hp
        exact isAfter_of_reaches hin hr hreaches

theorem answer_eq_head? {calls : List Call} {past later : List Event}
    {answer : Except StoreError (Option Entry)} (hs : s.Answers) (hin : s.InRange)
    (h : s.events calls = past ++ .read answer :: later) (hpast : .read (.ok none) ∉ past) :
    answer = .ok (s.left.filter fun e => past.all (·.admits e.1)).head? := by
  induction past generalizing s calls with
  | nil =>
    cases calls with
    | nil => simp [events] at h
    | cons c cs =>
      obtain ⟨hread, -⟩ := List.cons.inj h
      cases c with
      | seek k => cases hread
      | next =>
        simp only [call, hs.next, Event.read.injEq] at hread
        simp [← hread]
  | cons event past ih =>
    cases calls with
    | nil => simp [events] at h
    | cons c cs =>
      obtain ⟨rfl, hrest⟩ := List.cons.inj h
      obtain ⟨hnow, hpast⟩ := List.ne_and_not_mem_of_not_mem_cons hpast
      obtain ⟨hleft, hin'⟩ := left_call hs hin c hnow.symm
      rw [ih (hs.call c) hin' hrest hpast, hleft, List.filter_filter]
      simp only [List.all_cons, Bool.and_comm]

/-- An entry of the table that the scanner is set up to return, above every entry returned
so far and not below any key sought so far. -/
structure Admissible (s : Scanner) (t : Table) (past : List Event) (e : Entry) : Prop where
  mem : e ∈ t.toList
  inRange : ∀ r ∈ s.range, r.contains e.1 = true
  family : s.families.isEmpty = true ∨ e.1.family ∈ s.families
  datatype : ∀ types ∈ s.datatypes, ∃ type ∈ datatypeOf? e.1, type ∈ types
  unread : ∀ x, .read (.ok (some x)) ∈ past → x.1 < e.1
  reached : ∀ k, .sought k ∈ past → ¬ e.1 < k

/-- An answer is the least admissible entry, or nothing if no entry is admissible. -/
def IsLeast (s : Scanner) (t : Table) (past : List Event) : Option Entry → Prop
  | some e => s.Admissible t past e ∧ ∀ x, s.Admissible t past x → ¬ x.1 < e.1
  | none => ∀ x, ¬ s.Admissible t past x

theorem accepts_iff : s.accepts k = true ↔
    (s.families.isEmpty = true ∨ k.family ∈ s.families) ∧
      ∀ types ∈ s.datatypes, ∃ type ∈ datatypeOf? k, type ∈ types := by
  rw [accepts, Bool.and_eq_true, Bool.or_eq_true, decide_eq_true_eq]
  cases s.datatypes with
  | none => simp
  | some types => cases datatypeOf? k <;> simp

theorem mem_left_iff (hs : s.IsOpened t) (hp : s.position = none) : e ∈ s.left ↔
    e ∈ t.toList ∧ (∀ r ∈ s.range, r.contains e.1 = true) ∧ s.accepts e.1 = true := by
  have hrange : s.reaches e.1 = true ∧ (!s.isPast e.1) = true ↔
      ∀ r ∈ s.range, r.contains e.1 = true := by
    cases hr : s.range <;> simp [reaches, isPast, hp, hr, Range.contains]
  rw [left, List.mem_filter, hs.eq.1, Bool.and_eq_true, Bool.and_eq_true, ← hrange, and_assoc]

theorem admits_all_iff {past : List Event} : past.all (·.admits k) = true ↔
    (∀ x, .read (.ok (some x)) ∈ past → x.1 < k) ∧ ∀ l, .sought l ∈ past → ¬ k < l := by
  rw [List.all_eq_true]
  refine ⟨fun h => ⟨fun x hx => of_decide_eq_true (h _ hx), fun l hl => of_decide_eq_true (h _ hl)⟩,
    fun ⟨hread, hsought⟩ event hevent => ?_⟩
  match event with
  | .sought l => exact decide_eq_true (hsought l hevent)
  | .read (.ok (some x)) => exact decide_eq_true (hread x hevent)
  | .read (.ok none) => rfl
  | .read (.error _) => rfl

theorem mem_left_filter_iff (hs : s.IsOpened t) (hp : s.position = none) (past : List Event) :
    (e ∈ s.left.filter fun e => past.all (·.admits e.1)) ↔ s.Admissible t past e := by
  rw [List.mem_filter, mem_left_iff hs hp, accepts_iff, admits_all_iff]
  exact ⟨fun ⟨⟨hmem, hrange, hfamily, htype⟩, hread, hsought⟩ =>
      ⟨hmem, hrange, hfamily, htype, hread, hsought⟩,
    fun h => ⟨⟨h.mem, h.inRange, h.family, h.datatype⟩, h.unread, h.reached⟩⟩

theorem isLeast_head? {past : List Event} {es : List Entry} (hes : es.Pairwise (·.1 < ·.1))
    (h : ∀ x, x ∈ es ↔ s.Admissible t past x) : s.IsLeast t past es.head? := by
  cases es with
  | nil => exact fun x hx => List.not_mem_nil ((h x).mpr hx)
  | cons e es =>
    refine ⟨(h e).mp List.mem_cons_self, fun x hx hlt => ?_⟩
    rcases List.mem_cons.mp ((h x).mpr hx) with rfl | hmem
    · exact KeyOrder.irrefl _ hlt
    · exact KeyOrder.irrefl _ (KeyOrder.trans hlt ((List.pairwise_cons.mp hes).1 x hmem))

/-- Up to the first that finds nothing, every read of a scanner that has not been moved
before returns the least admissible entry; draining returns all of them in key order. -/
theorem reads_least_admissible (hs : s.IsOpened t) (hp : s.position = none) :
    (∀ calls past answer later, s.events calls = past ++ .read answer :: later →
      .read (.ok none) ∉ past → ∃ e?, answer = .ok e? ∧ s.IsLeast t past e?) ∧
    ∃ es s', s.drain = (es, .exhausted, s') ∧ es.Pairwise (·.1 < ·.1) ∧
      ∀ e, e ∈ es ↔ s.Admissible t [] e := by
  have hleft := ascending_left hs.answers.ascending
  constructor
  · intro calls past answer later hevents hpast
    have hin : s.InRange := fun r _ p hmem => by simp [hp] at hmem
    exact ⟨_, answer_eq_head? hs.answers hin hevents hpast,
      isLeast_head? (hleft.sublist List.filter_sublist) fun x => mem_left_filter_iff hs hp past⟩
  · have hlength : s.left.length < s.entries.length + 1 :=
      Nat.lt_succ_of_le (List.length_filter_le _ _)
    obtain ⟨s', hs'⟩ :=
      readMany_of_returns_of_lt ⟨hs.answers.ascending, hs.answers.unlimited, rfl⟩ hlength
    refine ⟨s.left, s', hs', hleft, fun e => ?_⟩
    have hadmissible : e ∈ s.left.filter (fun _ => true) ↔ s.Admissible t [] e :=
      mem_left_filter_iff hs hp []
    rwa [List.filter_true] at hadmissible

def logTable : Table :=
  .ofList [(⟨"a", "F", "1\x00log"⟩, []), (⟨"a", "G", "1\x00log"⟩, []),
    (⟨"b", "F", "1\x00csv"⟩, []), (⟨"b", "F", "1\x00log"⟩, []), (⟨"c", "F", "1\x00log"⟩, [])]

def logScanner : Scanner :=
  { (ofTable "t" logTable fun _ _ => none) with
    range := some ⟨⟨"a", "F", "1\x00log"⟩, false, some ⟨"c", "F", "1\x00log"⟩, true⟩
    families := .ofList ["F"]
    datatypes := some ["log"] }

theorem isOpened_logScanner : logScanner.IsOpened logTable := by
  have hfilter : addFilter datatypeFilter (.ofList [(typesOption, "log")])
      { logScanner with datatypes := none } = .ok logScanner := by
    have htypes : (SortedMap.ofList [(typesOption, "log")]).get? typesOption = some "log" := by
      decide +kernel
    have hsplit : (Text.split ',' "log").filter (· ≠ "") = ["log"] := by decide +kernel
    simp only [addFilter, ne_eq, not_true_eq_false, if_false, htypes, hsplit]
    rfl
  exact .addFilter hfilter (.fetchFamily "F" (.setRange _ (.ofTable "t")))

theorem reads_least_admissible_logScanner :
    logScanner.IsOpened logTable ∧ logScanner.position = none ∧
    (∀ calls past answer later, logScanner.events calls = past ++ .read answer :: later →
      .read (.ok none) ∉ past → ∃ e?, answer = .ok e? ∧ logScanner.IsLeast logTable past e?) ∧
    ∃ es s', logScanner.drain = (es, .exhausted, s') ∧ es.Pairwise (·.1 < ·.1) ∧
      ∀ e, e ∈ es ↔ logScanner.Admissible logTable [] e :=
  ⟨isOpened_logScanner, rfl, reads_least_admissible isOpened_logScanner rfl⟩

/-- A seek backwards changes nothing, and the end of the range is included. -/
example : logScanner.events [.next, .seek ⟨"a", "F", "1\x00log"⟩, .next, .next] =
    [.read (.ok (some (⟨"b", "F", "1\x00log"⟩, []))), .sought ⟨"a", "F", "1\x00log"⟩,
      .read (.ok (some (⟨"c", "F", "1\x00log"⟩, []))), .read (.ok none)] := by
  decide +kernel

/-! ### After a read that finds nothing -/

def Event.entry? : Event → Option Entry
  | .read (.ok e?) => e?
  | _ => none

def returned (events : List Event) : List Entry := events.filterMap Event.entry?

/-- A run over a range in which nothing comes after a read that finds nothing, nothing is
returned twice and nothing lies outside the range. -/
structure Finishes (r : Range) (events : List Event) : Prop where
  ends : ∀ past answer later, events = past ++ .read answer :: later →
    .read (.ok none) ∈ past → answer = .ok none
  once : (returned events).Nodup
  inside : ∀ e ∈ returned events, r.contains e.1 = true

def HasEntryAtEnd (t : Table) (s : Scanner) (r : Range) : Prop :=
  r.stopIncluded = true ∧ ∃ e ∈ t.toList, r.stop? = some e.1 ∧ s.accepts e.1 = true

def NothingAtEnd (s : Scanner) : Prop :=
  ∀ stop ∈ s.range.bind (·.stop?), left { s with position := some (.at stop) } = []

theorem NothingAtEnd.call (h : s.NothingAtEnd) (c : Call) : (s.call c).2.NothingAtEnd := by
  obtain ⟨p, n, hc⟩ := exists_call_eq c s
  rw [hc]
  exact h

theorem left_move_none (h : s.NothingAtEnd) (hleft : s.left = []) {n : Nat} :
    (move { s with reads := n } none).left = [] := by
  simp only [move]
  split
  · next stop hstop => exact h stop hstop
  · exact hleft

theorem left_call_of_nil (hs : s.Answers) (h : s.NothingAtEnd) (hleft : s.left = []) (c : Call) :
    (s.call c).2.left = [] := by
  cases c with
  | seek k => exact List.sublist_nil.mp (hleft ▸ sublist_left_seek k)
  | next =>
    rw [call, hs.next, hleft]
    exact left_move_none h hleft

theorem answer_eq_none {calls : List Call} {answer : Except StoreError (Option Entry)}
    (hs : s.Answers) (h : s.NothingAtEnd) (hleft : s.left = [])
    (hmem : .read answer ∈ s.events calls) : answer = .ok none := by
  induction calls generalizing s with
  | nil => cases hmem
  | cons c cs ih =>
    rcases List.mem_cons.mp hmem with hread | hmem
    · cases c with
      | seek k => cases hread
      | next =>
        simp only [Scanner.call, hs.next, hleft, List.head?_nil, Event.read.injEq] at hread
        exact hread
    · exact ih (hs.call c) (h.call c) (left_call_of_nil hs h hleft c) hmem

theorem ends_of_nothingAtEnd {calls : List Call} {past later : List Event}
    {answer : Except StoreError (Option Entry)} (hs : s.Answers) (h : s.NothingAtEnd)
    (hevents : s.events calls = past ++ .read answer :: later) (hpast : .read (.ok none) ∈ past) :
    answer = .ok none := by
  induction past generalizing s calls with
  | nil => cases hpast
  | cons event past ih =>
    cases calls with
    | nil => simp [events] at hevents
    | cons c cs =>
      obtain ⟨rfl, hrest⟩ := List.cons.inj hevents
      rcases List.mem_cons.mp hpast with hnow | hpast
      · cases c with
        | seek k => cases hnow
        | next =>
          simp only [Scanner.call, hs.next, Event.read.injEq, Except.ok.injEq] at hnow
          have hleft : s.left = [] := List.head?_eq_none_iff.mp hnow.symm
          have hread : .read answer ∈ (s.call .next).2.events cs := by
            rw [hrest]
            exact List.mem_append_right past List.mem_cons_self
          exact answer_eq_none (hs.call .next) (h.call .next) (left_call_of_nil hs h hleft .next)
            hread
      · exact ih (hs.call c) (h.call c) hrest hpast

/-- Calls return entries that were left, each once and in their order. -/
theorem sublist_returned (hs : s.Answers) (h : s.NothingAtEnd) (calls : List Call) :
    (returned (s.events calls)).Sublist s.left := by
  induction calls generalizing s with
  | nil => exact List.nil_sublist _
  | cons c cs ih =>
    have hrest := ih (hs.call c) (h.call c)
    cases c with
    | seek k => exact hrest.trans (sublist_left_seek k)
    | next =>
      have hread : (s.call .next).1 = .read (.ok s.left.head?) := by rw [Scanner.call, hs.next]
      cases hleft : s.left with
      | nil =>
        rw [left_call_of_nil hs h hleft] at hrest
        rw [hleft] at hread
        rw [events, hread, returned, List.filterMap_cons_none (f := Event.entry?) rfl]
        exact hrest
      | cons e es =>
        have hbehind : (s.call .next).2.left = es := by
          rw [Scanner.call, hs.next, hleft]
          exact left_past hs.ascending hleft
        rw [hbehind] at hrest
        rw [hleft] at hread
        rw [events, hread, returned, List.filterMap_cons_some (f := Event.entry?) rfl]
        exact hrest.cons_cons e

theorem mem_left_at_iff (hstop : r.stop? = some stop) :
    e ∈ left { s with range := some r, position := some (.at stop) } ↔
      r.stopIncluded = true ∧ e ∈ s.entries ∧ e.1 = stop ∧ s.accepts e.1 = true := by
  have hkey : ¬ e.1 < stop ∧ r.isBefore e.1 = false ↔ r.stopIncluded = true ∧ e.1 = stop := by
    cases hi : r.stopIncluded with
    | true =>
      simp only [Range.isBefore, hstop, hi, if_true, decide_eq_false_iff_not, true_and]
      constructor
      · rintro ⟨hbelow, habove⟩
        exact KeyOrder.connected hbelow habove
      · rintro rfl
        exact ⟨KeyOrder.irrefl _, KeyOrder.irrefl _⟩
    | false =>
      simp only [Range.isBefore, hstop, hi, Bool.false_eq_true, if_false, false_and, iff_false]
      rintro ⟨hbelow, habove⟩
      exact hbelow (by simpa using habove)
  have hleft : e ∈ left { s with range := some r, position := some (.at stop) } ↔
      e ∈ s.entries ∧ (¬ e.1 < stop ∧ r.isBefore e.1 = false) ∧ s.accepts e.1 = true := by
    rw [left, List.mem_filter, Bool.and_eq_true, Bool.and_eq_true, and_assoc]
    simp only [reaches, Position.admits, isPast, decide_eq_true_eq, Bool.not_eq_true', accepts]
  rw [hleft, hkey]
  constructor
  · rintro ⟨hmem, ⟨hincluded, hend⟩, haccepts⟩
    exact ⟨hincluded, hmem, hend, haccepts⟩
  · rintro ⟨hincluded, hmem, hend, haccepts⟩
    exact ⟨hmem, ⟨hincluded, hend⟩, haccepts⟩

theorem nothingAtEnd_of_not_hasEntryAtEnd (hs : s.IsOpened t) (h : ¬ HasEntryAtEnd t s r) :
    (s.setRange r).NothingAtEnd := by
  intro stop hstop
  refine List.eq_nil_iff_forall_not_mem.mpr fun e he => h ?_
  obtain ⟨hincluded, hmem, rfl, haccepts⟩ := (mem_left_at_iff (s := s) hstop).mp he
  exact ⟨hincluded, e, hs.eq.1 ▸ hmem, hstop, haccepts⟩

/-- An entry at the end is returned after all others, and a read that found nothing. -/
theorem exists_read_after_none (hs : s.Answers) (hstop : s.range.bind (·.stop?) = some stop)
    (hleft : left { s with position := some (.at stop) } ≠ []) :
    ∃ calls past x, s.events calls = past ++ [.read (.ok (some x))] ∧ .read (.ok none) ∈ past := by
  generalize hes : s.left = es
  induction es generalizing s with
  | nil =>
    have hmoved : (s.call .next).2 =
        { s with position := some (.at stop), reads := s.reads + 1 } := by
      simp only [call, hs.next, hes, List.head?_nil, move, hstop]
    have hread : (s.call .next).1 = .read (.ok none) := by
      simp only [call, hs.next, hes, List.head?_nil]
    obtain ⟨x, xs, hx⟩ := List.exists_cons_of_ne_nil hleft
    refine ⟨[.next, .next], [.read (.ok none)], x, ?_, List.mem_singleton_self _⟩
    simp only [events, hread, List.cons_append, List.nil_append, List.cons.injEq, true_and,
      and_true]
    rw [call, (hs.call .next).next, hmoved]
    exact congrArg (fun xs : List Entry => Event.read (.ok xs.head?)) hx
  | cons e es ih =>
    have hmoved : (s.call .next).2 =
        { s with position := some (.past e.1), reads := s.reads + 1 } := by
      simp only [call, hs.next, hes, List.head?_cons, move]
    obtain ⟨calls, past, x, hevents, hpast⟩ :=
      ih (hs.call .next) (by rw [hmoved]; exact hstop) (by rw [hmoved]; exact hleft)
        (by rw [hmoved]; exact left_past hs.ascending hes)
    exact ⟨.next :: calls, (s.call .next).1 :: past, x, by rw [events, hevents]; rfl,
      List.mem_cons_of_mem _ hpast⟩

/-- Exactly if there is no accepted entry at its included end does every run over a range
finish. -/
theorem finishes_iff (hs : s.IsOpened t) (r : Range) :
    (∀ calls, Finishes r ((s.setRange r).events calls)) ↔ ¬ HasEntryAtEnd t s r := by
  have hanswers := (hs.setRange r).answers
  constructor
  · rintro h ⟨hincluded, e, hmem, hstop, haccepts⟩
    have hleft : left { s.setRange r with position := some (.at e.1) } ≠ [] :=
      List.ne_nil_of_mem ((mem_left_at_iff (s := s) hstop).mpr
        ⟨hincluded, hs.eq.1 ▸ hmem, rfl, haccepts⟩)
    obtain ⟨calls, past, x, hevents, hpast⟩ := exists_read_after_none hanswers hstop hleft
    cases (h calls).ends past _ [] hevents hpast
  · intro h calls
    have hnothing := nothingAtEnd_of_not_hasEntryAtEnd hs h
    have hreturned := sublist_returned hanswers hnothing calls
    refine ⟨fun past answer later hevents hpast =>
      ends_of_nothingAtEnd hanswers hnothing hevents hpast, ?_, fun e he => ?_⟩
    · refine ((ascending_left hanswers.ascending).sublist hreturned).imp fun hlt heq => ?_
      exact KeyOrder.irrefl _ (heq ▸ hlt)
    · obtain ⟨-, hrange, -⟩ := (mem_left_iff (hs.setRange r) rfl).mp (hreturned.subset he)
      exact hrange r rfl

def csvEnd : Range := ⟨⟨"a", "F", "1\x00log"⟩, true, some ⟨"b", "F", "1\x00csv"⟩, true⟩

theorem finishes_iff_csvEnd : logScanner.IsOpened logTable ∧
    ∀ calls, Finishes csvEnd ((logScanner.setRange csvEnd).events calls) := by
  have hnone : ¬ HasEntryAtEnd logTable logScanner csvEnd := by
    rintro ⟨-, e, -, hstop, haccepts⟩
    rw [← Option.some.inj hstop] at haccepts
    exact absurd haccepts (by decide +kernel)
  exact ⟨isOpened_logScanner, (finishes_iff isOpened_logScanner csvEnd).mpr hnone⟩

def oneEntry : Table := .ofList [(⟨"a", "F", "q"⟩, [1, 0, 1, 1, 117])]

def oneKey : Range := ⟨⟨"a", "F", "q"⟩, true, some ⟨"a", "F", "q"⟩, true⟩

/-- The entry at the end is returned, then nothing, and then the entry again. -/
theorem not_finishes_oneEntry :
    ¬ Finishes oneKey
      (((ofTable "t" oneEntry fun _ _ => none).setRange oneKey).events
        [.next, .next, .next]) := by
  intro h
  have hagain := h.ends [.read (.ok (some (⟨"a", "F", "q"⟩, [1, 0, 1, 1, 117]))), .read (.ok none)]
    (.ok (some (⟨"a", "F", "q"⟩, [1, 0, 1, 1, 117]))) [] (by decide +kernel) (by decide)
  cases hagain

end ShardedSearch.Store.Scanner
