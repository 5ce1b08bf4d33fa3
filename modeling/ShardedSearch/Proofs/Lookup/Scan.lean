import ShardedSearch.Lookup.Clause
import ShardedSearch.Proofs.Lookup.Batches
import ShardedSearch.Proofs.Lookup.Making
import ShardedSearch.Proofs.Lookup.Term
import ShardedSearch.Proofs.Text.Separator

/-! # Scans of terms

A term is looked up in the entries of its range with a datatype that the settings accept.
If they can all be read, its stream lists the shards they are about; if the scan fails
before its first batch is complete, the term is deferred.
-/

namespace ShardedSearch.Lookup

open Index (Layout.shardOf Layout.termRange Layout.contains_termRange_iff)
open Merge (Source)
open Merge.Stream (Yields)
open Store (Entry Key Range Scanner StoreError Table)

/-- Whether the settings accept the datatype of a key; one with commas stands for several. -/
def acceptsType (types : List String) (k : Key) : Bool :=
  types.isEmpty ||
    (Scanner.datatypeOf? k).any fun t => t ≠ "" ∧ t ∈ types.flatMap (Text.split ',')

variable {x : LookupContext} {place : Place} {name field value : String} {t : Table}
variable {limit : Store.ReadLimit} {range : Range}

/-- Whether a clause sees a table at a place and can read all of a range of it. -/
def Sees (x : LookupContext) (place : Place) (range : Range) (t : Table) : Prop :=
  ∃ name limit, x.scannerAt place = .ok (.ofTable name t limit) ∧ limit name (some range) = none

abbrev rangeOf (c : PlanConfig) (field value : String) : Range :=
  Layout.termRange value field c.firstDay c.lastDay

theorem left_of_fetch (types : Option (List String)) :
    Scanner.left { ((Scanner.ofTable name t limit).setRange range).fetchFamily field with
      datatypes := types } =
      t.toList.filter fun e => range.contains e.1 && (e.1.family = field &&
        match types with
        | some types => (Scanner.datatypeOf? e.1).any (· ∈ types)
        | none => true) := by
  apply List.filter_congr
  intro e _
  change (!range.isAfter e.1 && (!range.isBefore e.1 && _)) = _
  rw [Range.contains, Bool.and_assoc, Scanner.accepts]
  congr 3
  change ((SortedSet.empty.insert field).isEmpty || decide (_ ∈ SortedSet.empty.insert field)) = _
  have hne : (SortedSet.empty.insert field).isEmpty = false := by
    rw [← Bool.not_eq_true, SortedSet.isEmpty_iff]
    exact fun h => h field (SortedSet.mem_insert.mpr (.inl rfl))
  rw [hne, Bool.false_or]
  exact decide_eq_decide.mpr (by simp [SortedSet.mem_insert])

def entriesIn (c : PlanConfig) (t : Table) (field : String) (range : Range) : List Entry :=
  t.toList.filter fun e =>
    range.contains e.1 && (e.1.family = field && acceptsType c.settings.lookup.datatypes e.1)

theorem exists_openScanner (h : x.scannerAt place = .ok (.ofTable name t limit)) :
    ∃ s, openScanner x place field range = .ok s ∧ s.left = entriesIn x.config t field range ∧
      s.entries = t.toList ∧ s.readLimit s.table s.range = limit name (some range) := by
  rw [openScanner, h]
  cases htypes : x.config.settings.lookup.datatypes with
  | nil =>
    refine ⟨_, rfl, ?_, rfl, rfl⟩
    refine (left_of_fetch none).trans (List.filter_congr fun e _ => ?_)
    simp [acceptsType, htypes]
  | cons type types =>
    refine ⟨_, rfl, ?_, rfl, rfl⟩
    refine (left_of_fetch (some _)).trans (List.filter_congr fun e _ => ?_)
    have hsplit := Text.split_intercalate ',' (List.cons_ne_nil type types)
    change Text.split ',' (",".intercalate (type :: types)) = _ at hsplit
    simp only [acceptsType, htypes, List.isEmpty_cons, Bool.false_or, hsplit, List.mem_filter]
    congr 3
    funext a
    simp [and_comm]

theorem openScanner_of_sees (h : Sees x place range t) :
    ∃ s, openScanner x place field range = .ok s ∧
      s.Returns (entriesIn x.config t field range) := by
  obtain ⟨name, limit, hopen, hlimit⟩ := h
  obtain ⟨s, hs, hleft, hentries, hreads⟩ :=
    @exists_openScanner x place name field t limit range hopen
  exact ⟨s, hs, hentries ▸ t.ascending, hreads.trans hlimit, hleft⟩

def termEntries (c : PlanConfig) (t : Table) (field value : String) : List Entry :=
  t.toList.filter fun e => (rangeOf c field value).contains e.1 &&
    acceptsType c.settings.lookup.datatypes e.1

theorem entriesIn_rangeOf (c : PlanConfig) (t : Table) (field value : String) :
    entriesIn c t field (rangeOf c field value) = termEntries c t field value := by
  apply List.filter_congr
  intro e _
  by_cases hc : (rangeOf c field value).contains e.1
  · rw [decide_eq_true (Layout.contains_termRange_iff.mp hc).2.1, Bool.true_and]
  · rw [Bool.eq_false_iff.mpr hc, Bool.false_and, Bool.false_and]

theorem openScanner_rangeOf (h : Sees x place (rangeOf x.config field value) t) :
    ∃ s, openScanner x place field (rangeOf x.config field value) = .ok s ∧
      s.Returns (termEntries x.config t field value) :=
  entriesIn_rangeOf x.config t field value ▸ openScanner_of_sees h

theorem byShard_termEntries (c : PlanConfig) (t : Table) (field value : String) :
    ByShard (termEntries c t field value) := by
  have hin : ∀ e ∈ termEntries c t field value, e.1.row = value ∧ e.1.family = field := by
    intro e he
    have hc := (Bool.and_eq_true_iff.mp (List.mem_filter.mp he).2).1
    obtain ⟨hrow, hfam, -⟩ := Layout.contains_termRange_iff.mp hc
    exact ⟨hrow, hfam⟩
  exact byShard_of_ascending (t.ascending.sublist List.filter_sublist) hin

/-- A shard index: every entry is about a shard and has a uid list. -/
def IsShardIndex (t : Table) : Prop :=
  ∀ e ∈ t.toList, Shard.isDay (Layout.shardOf e.1) = false ∧ IsUidList e.2

theorem isListing_termCandidates (h : IsShardIndex t) (c : PlanConfig) :
    Candidate.IsListing
      (termCandidates (.equals field value) (termEntries c t field value)) := by
  obtain ⟨hasc, hat⟩ := evidenceAt_termCandidates (q := .equals field value)
    (byShard_termEntries c t field value)
  have hterm : ∀ k ∈ termCandidates (.equals field value) (termEntries c t field value),
      termEvidence? (.equals field value)
        (listsAt (termEntries c t field value) k.shard) = some k.evidence := fun k hk =>
    (hat k.shard).symm.trans ((Candidate.evidenceAt_eq_some_iff hasc).mpr hk)
  refine ⟨hasc, fun k hk => ?_, fun k hk => ?_⟩
  · obtain ⟨e, he, hs⟩ := exists_entry_of_termEvidence? (hterm k hk)
    exact hs ▸ (h e (List.mem_filter.mp he).1).1
  · rw [query_of_termEvidence? rfl (hterm k hk)]
    trivial

/-- The stream of a term lists its shards, unless there is no memory for a batch. -/
theorem yields_term (hs : Sees x place (rangeOf x.config field value) t) (ht : IsShardIndex t) :
    Yields (canHold (batchSize x) = false)
      (term x place (.equals field value) field value).await
      (.listed (termCandidates (.equals field value) (termEntries x.config t field value))) := by
  obtain ⟨s, hopen, hr⟩ := openScanner_rangeOf hs
  have hread : (Except.ok s : Except StoreError Scanner).bind (Batches.read (batchSize x) false) =
      .ok ⟨termEntries x.config t field value, none⟩ := Batches.read_of_returns hr
  have hv : ∀ e ∈ termEntries x.config t field value, IsUidList e.2 := fun e he =>
    (ht e (List.mem_filter.mp he).1).2
  simp only [term, hopen, holding, ofTerm, hread, termSource_eq (byShard_termEntries ..) hv]
  cases hc : canHold (batchSize x) with
  | true => exact Merge.Stream.yields_ofList (isListing_termCandidates ht x.config)
  | false => exact Merge.Stream.yields_abandoned rfl

def FailsFirst (x : LookupContext) (place : Place) (field value : String) : Prop :=
  ∃ e, (openScanner x place field (rangeOf x.config field value)).bind
    (Batches.read (batchSize x) false) = .error e

theorem yields_term_of_failsFirst (h : FailsFirst x place field value) :
    Yields (canHold (batchSize x) = false)
      (term x place (.equals field value) field value).await
      (.delayed (.equals field value)) := by
  obtain ⟨e, he⟩ := h
  simp only [term, ofTerm, he]
  cases openScanner x place field (rangeOf x.config field value) with
  | error => exact Merge.Stream.yields_store (q := .equals field value) trivial e
  | ok s =>
    rw [holding]
    cases hc : canHold (batchSize x) with
    | true => exact Merge.Stream.yields_store (q := .equals field value) trivial e
    | false => exact Merge.Stream.yields_abandoned rfl

end ShardedSearch.Lookup
