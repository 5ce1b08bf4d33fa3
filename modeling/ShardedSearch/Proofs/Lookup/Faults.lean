import ShardedSearch.Proofs.Lookup.Interval
import ShardedSearch.Proofs.Lookup.Lockstep
import ShardedSearch.Proofs.Merge.Faults

/-! # Faulty indexes

A shard index with values that cannot be read, and with scans that fail after their first
batch, beside the index that it would be without these faults. Every look-up in the faulty
one goes along with the one in the mended index until it meets a fault.
-/

namespace ShardedSearch.Lookup

open Wire (Bytes WireError)
open Index (UidList Layout.shardOf)
open Merge (CutOff Leaf Source Stream)
open Store (Entry Key Range Scanner StoreError Table)

variable {q : Query} {late : Option StoreError} {v w : Bytes} {vs ws : List Bytes}
variable {gs gs' : List (ShardId × List Bytes)} {es L L' : List Entry} {P : PlanError → Prop}

/-! ### Mended values -/

/-- A uid list in place of a value, the same one if the value is a uid list. -/
def MendedValue (v w : Bytes) : Prop := IsUidList w ∧ (IsUidList v → v = w)

def Mended (a b : Entry) : Prop := a.1 = b.1 ∧ MendedValue a.2 b.2

def MendedGroup (g g' : ShardId × List Bytes) : Prop :=
  g.1 = g'.1 ∧ List.Forall₂ MendedValue g.2 g'.2

theorem ofValue_of_mended {e : Evidence} (hvw : MendedValue v w)
    (h : Evidence.ofValue q v = .ok e) : Evidence.ofValue q w = .ok e := by
  rw [Evidence.ofValue] at h
  cases hv : (Wire.ofBytes v : Except WireError UidList) with
  | error err =>
    rw [hv] at h
    cases h
  | ok l => rwa [← hvw.2 ⟨l, hv⟩]

theorem ofBytes_of_ofValue {err : WireError} (h : Evidence.ofValue q v = .error err) :
    (Wire.ofBytes v : Except WireError UidList) = .error err := by
  rw [Evidence.ofValue] at h
  cases hv : (Wire.ofBytes v : Except WireError UidList) with
  | error e =>
    rw [hv] at h
    exact congrArg _ (Except.error.inj h)
  | ok l =>
    rw [hv] at h
    cases h

theorem mergeValues_of_mended {e r : Evidence} (hvw : List.Forall₂ MendedValue vs ws)
    (h : mergeValues q e vs = .ok r) : mergeValues q e ws = .ok r := by
  induction hvw generalizing e with
  | nil => exact h
  | cons hv _ ih =>
    rw [mergeValues] at h ⊢
    split at h
    · next f hf =>
      rw [ofValue_of_mended hv hf]
      exact ih h
    · cases h

theorem groupEvidence_of_mended {r : Evidence} (hvw : List.Forall₂ MendedValue vs ws)
    (h : groupEvidence q vs = .ok r) : groupEvidence q ws = .ok r := by
  cases hvw with
  | nil => exact h
  | cons hv hvs =>
    rw [groupEvidence] at h ⊢
    split at h
    · next e he =>
      rw [ofValue_of_mended hv he]
      exact mergeValues_of_mended hvs h
    · cases h

theorem exists_of_mergeValues {e : Evidence} {err : WireError}
    (h : mergeValues q e vs = .error err) :
    ∃ v ∈ vs, (Wire.ofBytes v : Except WireError UidList) = .error err := by
  induction vs generalizing e with
  | nil => cases h
  | cons v vs ih =>
    rw [mergeValues] at h
    split at h
    · obtain ⟨w, hw, herr⟩ := ih h
      exact ⟨w, List.mem_cons_of_mem v hw, herr⟩
    · next e' he =>
      obtain rfl := Except.error.inj h
      exact ⟨v, List.mem_cons_self, ofBytes_of_ofValue he⟩

theorem exists_of_groupEvidence {err : WireError} (h : groupEvidence q vs = .error err) :
    ∃ v ∈ vs, (Wire.ofBytes v : Except WireError UidList) = .error err := by
  cases vs with
  | nil => cases h
  | cons v vs =>
    rw [groupEvidence] at h
    split at h
    · obtain ⟨w, hw, herr⟩ := exists_of_mergeValues h
      exact ⟨w, List.mem_cons_of_mem v hw, herr⟩
    · next e he =>
      obtain rfl := Except.error.inj h
      exact ⟨v, List.mem_cons_self, ofBytes_of_ofValue he⟩

def HaveFaults (P : PlanError → Prop) (vs : List Bytes) : Prop :=
  ∀ v ∈ vs, ∀ err, (Wire.ofBytes v : Except WireError UidList) = .error err → P (.wire err)

theorem HaveFaults.of_groupEvidence {err : WireError} (h : HaveFaults P vs)
    (herr : groupEvidence q vs = .error err) : P (.wire err) := by
  obtain ⟨v, hv, herr⟩ := exists_of_groupEvidence herr
  exact h v hv err herr

/-! ### Groups -/

/-- Groups with mended values, up to the last one if a failure came in between. -/
inductive GroupsCut (late : Option StoreError) :
    List (ShardId × List Bytes) → List (ShardId × List Bytes) → Prop where
  | nil : late = none → GroupsCut late [] []
  | last {gs gs' : List (ShardId × List Bytes)} : late ≠ none → gs.length ≤ 1 →
      GroupsCut late gs gs'
  | cons {g g' : ShardId × List Bytes} {gs gs' : List (ShardId × List Bytes)} :
      MendedGroup g g' → GroupsCut late gs gs' → GroupsCut late (g :: gs) (g' :: gs')

theorem exists_groups_cons (e : Entry) (es : List Entry) :
    ∃ vs gs, groups (e :: es) = (Layout.shardOf e.1, vs) :: gs := by
  rw [groups_cons]
  split
  · split
    · exact ⟨_, _, rfl⟩
    · exact ⟨_, _, rfl⟩
  · exact ⟨_, _, rfl⟩

theorem GroupsCut.join {id : ShardId} (hvw : MendedValue v w)
    (h : GroupsCut late ((id, vs) :: gs) ((id, ws) :: gs')) :
    GroupsCut late ((id, v :: vs) :: gs) ((id, w :: ws) :: gs') := by
  cases h with
  | last hlate hlength => exact .last hlate hlength
  | cons hg hgs => exact .cons ⟨rfl, .cons hvw hg.2⟩ hgs

theorem groupsCut_groups (hL : List.Forall₂ Mended L L') (hfront : es <+: L)
    (hcomplete : late = none → es = L) : GroupsCut late (groups es) (groups L') := by
  induction hL generalizing es with
  | nil =>
    obtain rfl := List.prefix_nil.mp hfront
    cases late with
    | none => exact .nil rfl
    | some e => exact .last (by simp) (Nat.zero_le 1)
  | @cons a b L L' hab hL ih =>
    cases es with
    | nil =>
      have hlate : late ≠ none := fun h => by cases hcomplete h
      exact .last hlate (Nat.zero_le 1)
    | cons e es =>
      obtain ⟨rfl, htail⟩ := List.cons_prefix_cons.mp hfront
      have hrest := ih htail fun h => (List.cons.inj (hcomplete h)).2
      have hshard : Layout.shardOf b.1 = Layout.shardOf e.1 := by rw [hab.1]
      cases es with
      | nil =>
        cases late with
        | none =>
          obtain rfl : L = [] := (List.cons.inj (hcomplete rfl)).2.symm
          cases hL
          rw [groups_cons, groups_cons, hshard]
          exact .cons ⟨rfl, .cons hab.2 .nil⟩ (.nil rfl)
        | some err => exact .last (by simp) (Nat.le_refl 1)
      | cons f es =>
        cases hL with
        | nil => exact absurd (List.prefix_nil.mp htail) (List.cons_ne_nil f es)
        | @cons a' b' K K' hab' hK =>
          obtain ⟨rfl, -⟩ := List.cons_prefix_cons.mp htail
          obtain ⟨vs, gs, hgs⟩ := exists_groups_cons f es
          obtain ⟨ws, gs', hgs'⟩ := exists_groups_cons b' K'
          rw [← hab'.1] at hgs'
          rw [hgs, hgs'] at hrest
          rw [@groups_cons (f :: es) e, @groups_cons (b' :: K') b, hgs, hgs', hshard]
          dsimp only
          split
          · next heq => exact heq ▸ hrest.join hab.2
          · exact .cons ⟨rfl, .cons hab.2 .nil⟩ hrest

/-! ### Sources of terms -/

theorem exists_of_cons_eq_ofList {c : Candidate} {items : List (Option PlanError × Candidate)}
    {ending : Option PlanError} {cs : List Candidate}
    (h : ⟨(none, c) :: items, ending⟩ = Source.ofList cs) :
    ∃ cs', ⟨items, ending⟩ = Source.ofList cs' ∧ cs = c :: cs' := by
  cases cs with
  | nil => cases h
  | cons d cs =>
    cases h
    exact ⟨cs, rfl, rfl⟩

theorem cutOff_termSource {cs : List Candidate} (h : GroupsCut late gs gs')
    (hwire : ∀ g ∈ gs, HaveFaults P g.2) (hstore : ∀ e ∈ late, P (.store e))
    (hsound : termSource q none gs' = .ofList cs) :
    CutOff P (termSource q late gs).items (termSource q late gs).ending cs := by
  induction h generalizing cs with
  | nil hlate =>
    subst hlate
    cases cs with
    | nil => exact .nil
    | cons => cases hsound
  | @last gs gs' hlate hlength =>
    obtain ⟨e, rfl⟩ := Option.ne_none_iff_exists'.mp hlate
    match gs with
    | [] => exact .ended (hstore e rfl)
    | [g] =>
      rw [termSource]
      split
      · next err herr => exact .ended ((hwire g List.mem_cons_self).of_groupEvidence herr)
      · split
        · exact .ended (hstore e rfl)
        · exact .broken (hstore e rfl)
  | @cons g g' gs gs' hg hgs ih =>
    obtain ⟨hself, hrest⟩ := List.forall_mem_cons.mp hwire
    rw [termSource]
    rw [termSource] at hsound
    split
    · next err herr => exact .ended (hself.of_groupEvidence herr)
    · next ev hev =>
      rw [groupEvidence_of_mended hg.2 hev] at hsound
      dsimp only at hsound
      split
      · next hempty =>
        rw [if_pos hempty] at hsound
        exact ih hrest hsound
      · next hnot =>
        rw [if_neg hnot] at hsound
        obtain ⟨cs, hrest', rfl⟩ : ∃ cs', termSource q none gs' = .ofList cs' ∧
            cs = ⟨g.1, ev⟩ :: cs' := by
          rw [hg.1]
          cases gs' with
          | nil => exact exists_of_cons_eq_ofList hsound
          | cons => exact exists_of_cons_eq_ofList hsound
        have hcut := ih hrest hrest'
        cases gs with
        | cons => exact .cons hcut
        | nil =>
          cases late with
          | none => exact .cons hcut
          | some e => exact .broken (hstore e rfl)

/-! ### Entries of intervals -/

variable {firstDay lastDay : String} {found r : SortedMap ShardId Evidence}

theorem addEntries_of_mended (hL : List.Forall₂ Mended L L')
    (h : addEntries q firstDay lastDay found L = .ok r) :
    addEntries q firstDay lastDay found L' = .ok r := by
  induction hL generalizing found with
  | nil => exact h
  | cons hab _ ih =>
    rw [addEntries] at h ⊢
    rw [← hab.1]
    split at h
    · next hday =>
      rw [if_pos hday]
      exact ih h
    · next hday =>
      rw [if_neg hday]
      split at h
      · next ev hev =>
        rw [ofValue_of_mended hab.2 hev]
        exact ih h
      · cases h

theorem exists_of_addEntries {err : WireError}
    (h : addEntries q firstDay lastDay found es = .error err) :
    ∃ e ∈ es, (Wire.ofBytes e.2 : Except WireError UidList) = .error err := by
  induction es generalizing found with
  | nil => cases h
  | cons e es ih =>
    have hrest : ∀ {found}, addEntries q firstDay lastDay found es = .error err →
        ∃ f ∈ e :: es, (Wire.ofBytes f.2 : Except WireError UidList) = .error err := fun h => by
      obtain ⟨f, hf, herr⟩ := ih h
      exact ⟨f, List.mem_cons_of_mem e hf, herr⟩
    rw [addEntries] at h
    split at h
    · exact hrest h
    · split at h
      · exact hrest h
      · next err' herr =>
        obtain rfl := Except.error.inj h
        exact ⟨e, List.mem_cons_self, ofBytes_of_ofValue herr⟩

/-! ### Contexts -/

/-- The errors of scans of an index: a value that is no uid list, and a read that fails. -/
inductive IsFault (x : LookupContext) : PlanError → Prop where
  | value {place : Place} {field : String} {range : Range} {s : Scanner} {e : Entry}
      {err : WireError} : openScanner x place field range = .ok s → e ∈ s.left →
      (Wire.ofBytes e.2 : Except WireError UidList) = .error err → IsFault x (.wire err)
  | scan {place : Place} {field : String} {range : Range} {s : Scanner} {e : StoreError} :
      openScanner x place field range = .ok s → s.MayFail e → IsFault x (.store e)

/-- A context with a faulty table, and one with a mended table that does not fail. Scans of the
faulty table fail behind their first batch only. -/
structure Mends (x y : LookupContext) (t t' : Table) : Prop where
  config : x.config = y.config
  counts : x.counts = y.counts
  table : List.Forall₂ Mended t.toList t'.toList
  scanner : ∀ place, (∃ e, x.scannerAt place = .error e ∧ y.scannerAt place = .error e) ∨
    ∃ name limit, x.scannerAt place = .ok (.ofTable name t limit) ∧
      y.scannerAt place = .ok (.ofTable name t' fun _ _ => none)
  firstBatch : ∀ place field range s, openScanner x place field range = .ok s →
    ∃ b, Batches.read (batchSize x) false s = .ok b

variable {x y : LookupContext} {t t' : Table} {place : Place} {field value : String}
variable {range : Range} {b : Batches}

structure MendedReads (x y : LookupContext) (t t' : Table) (place : Place) (field : String)
    (range : Range) (b : Batches) : Prop where
  opened : ∃ s, openScanner x place field range = .ok s ∧
    Batches.read (batchSize x) false s = .ok b
  opened' : ∃ s, openScanner y place field range = .ok s ∧
    Batches.read (batchSize y) false s = .ok ⟨entriesIn y.config t' field range, none⟩
  mended : List.Forall₂ Mended (entriesIn x.config t field range)
    (entriesIn y.config t' field range)
  front : b.entries <+: entriesIn x.config t field range
  complete : b.late = none → b.entries = entriesIn x.config t field range
  values : HaveFaults (IsFault x) (b.entries.map (·.2))
  late : ∀ e ∈ b.late, IsFault x (.store e)

theorem mended_filter (p : Key → Bool) (hL : List.Forall₂ Mended L L') :
    List.Forall₂ Mended (L.filter (p ·.1)) (L'.filter (p ·.1)) := by
  induction hL with
  | nil => exact .nil
  | cons hab _ ih =>
    rw [List.filter_cons, List.filter_cons, hab.1]
    split
    · exact .cons hab ih
    · exact ih

theorem Mends.returns {s : Scanner} (h : Mends x y t t')
    (hs : openScanner y place field range = .ok s) :
    s.Returns (entriesIn y.config t' field range) := by
  rcases h.scanner place with ⟨e, -, hy⟩ | ⟨name, -, -, hy⟩
  · rw [openScanner, hy] at hs
    cases hs
  · obtain ⟨s', hopen, hleft, hentries, hlimit⟩ :=
      @exists_openScanner y place name field t' _ range hy
    obtain rfl : s' = s := Except.ok.inj (hopen.symm.trans hs)
    exact ⟨hentries ▸ t'.ascending, hlimit, hleft⟩

theorem reads_of_mends (h : Mends x y t t') (place : Place) (field : String) (range : Range) :
    (∃ e e', openScanner x place field range = .error e ∧
      openScanner y place field range = .error e') ∨
    ∃ b, MendedReads x y t t' place field range b := by
  rcases h.scanner place with ⟨e, hx, hy⟩ | ⟨name, limit, hx, hy⟩
  · exact .inl ⟨e, e, by rw [openScanner, hx]; rfl, by rw [openScanner, hy]; rfl⟩
  · obtain ⟨s, hopen, hleft, hentries, -⟩ :=
      @exists_openScanner x place name field t limit range hx
    obtain ⟨s', hopen', -⟩ := @exists_openScanner y place name field t' _ range hy
    obtain ⟨b, hb⟩ := h.firstBatch place field range s hopen
    have hholds := Batches.holdsFrom_read (hentries ▸ t.ascending) hb
    have hmended : List.Forall₂ Mended (entriesIn x.config t field range)
        (entriesIn x.config t' field range) :=
      mended_filter (fun k => range.contains k && (k.family = field &&
        acceptsType x.config.settings.lookup.datatypes k)) h.table
    refine .inr ⟨b, ⟨s, hopen, hb⟩, ⟨s', hopen', Batches.read_of_returns (h.returns hopen')⟩,
      h.config ▸ hmended, hleft ▸ hholds.front, fun hl => (hholds.complete hl).trans hleft, ?_,
      fun e he => .scan hopen (hholds.late e he)⟩
    intro v hv err herr
    obtain ⟨e, he, rfl⟩ := List.mem_map.mp hv
    exact .value hopen (hholds.front.subset he) herr

theorem Mends.batchSize (h : Mends x y t t') : batchSize x = batchSize y := by
  rw [Lookup.batchSize, Lookup.batchSize, h.config]

theorem isUidList_of_mended (hL : List.Forall₂ Mended L L') : ∀ e ∈ L', IsUidList e.2 := by
  induction hL with
  | nil => simp
  | cons hab _ ih => exact List.forall_mem_cons.mpr ⟨hab.2.1, ih⟩

theorem Mends.self (h : Mends x y t t') : Mends y y t' t' where
  config := rfl
  counts := rfl
  table := List.forall₂_same.mpr fun e he =>
    ⟨rfl, isUidList_of_mended h.table e he, fun _ => rfl⟩
  scanner place := by
    rcases h.scanner place with ⟨e, -, hy⟩ | ⟨name, -, -, hy⟩
    · exact .inl ⟨e, hy, hy⟩
    · exact .inr ⟨name, _, hy, hy⟩
  firstBatch _ _ _ _ hs := ⟨_, Batches.read_of_returns (h.returns hs)⟩

theorem Mends.not_isFault (h : Mends x y t t') (e : PlanError) : ¬ IsFault y e := by
  intro hfault
  cases hfault with
  | value hs he herr =>
    rw [(h.returns hs).left_eq] at he
    obtain ⟨l, hl⟩ := isUidList_of_mended h.table _ (List.mem_filter.mp he).1
    rw [hl] at herr
    cases herr
  | scan hs hfail => exact hfail.2 (h.returns hs).unlimited

theorem cutOff_holding {n : Nat} {s s' : Scanner} {l l' : Merge.Lookup} (h : l.CutOff P l') :
    (holding n (.ok s) l).CutOff P (holding n (.ok s') l') := by
  rw [holding, holding]
  split
  · exact h
  · exact .lost

theorem values_sublist_of_mem_groups {g : ShardId × List Bytes} (hes : ByShard es)
    (hg : g ∈ groups es) : g.2.Sublist (es.map (·.2)) := by
  rw [((mem_groups_iff hes).mp hg).1, valuesAt]
  exact List.filter_sublist.map _

/-- The look-up of a term goes along with that in the mended index. -/
theorem cutOff_ofTerm (h : Mends x y t t') (place : Place) (q : Query) (field value : String) :
    (holding (batchSize x) (openScanner x place field (rangeOf x.config field value))
      (ofTerm q (batchSize x) false
        (openScanner x place field (rangeOf x.config field value)))).CutOff (IsFault x)
    (holding (batchSize y) (openScanner y place field (rangeOf y.config field value))
      (ofTerm q (batchSize y) false
        (openScanner y place field (rangeOf y.config field value)))) := by
  rw [← h.config]
  rcases reads_of_mends h place field (rangeOf x.config field value) with
    ⟨e, e', hx, hy⟩ | ⟨b, ⟨s, hx, hb⟩, ⟨s', hy, hb'⟩, hmended, hfront, hcomplete, hvalues,
      hlate⟩
  · rw [hx, hy]
    exact .deferred
  · rw [hx, hy, ← h.batchSize]
    refine cutOff_holding ?_
    have hby : ByShard b.entries := by
      rw [entriesIn_rangeOf] at hfront
      exact (byShard_termEntries x.config t field value).sublist hfront.sublist
    have hby' : ByShard (entriesIn y.config t' field (rangeOf x.config field value)) := by
      rw [h.config, entriesIn_rangeOf]
      exact byShard_termEntries y.config t' field value
    have hread : (Except.ok s : Except StoreError Scanner).bind
        (Batches.read (batchSize x) false) = .ok b := hb
    have hread' : (Except.ok s' : Except StoreError Scanner).bind
        (Batches.read (batchSize x) false) = .ok ⟨_, none⟩ := h.batchSize ▸ hb'
    rw [ofTerm, ofTerm, hread, hread']
    dsimp only
    rw [termSource_eq hby' (isUidList_of_mended hmended)]
    refine .found (cutOff_termSource (groupsCut_groups hmended hfront hcomplete) ?_ hlate ?_)
    · intro g hg v hv
      exact hvalues v ((values_sublist_of_mem_groups hby hg).subset hv)
    · exact termSource_eq hby' (isUidList_of_mended hmended)

theorem cutOff_ofInterval (h : Mends x y t t') (place : Place) (q : Query) (field : String)
    (range : Range) (firstDay lastDay : String) :
    (holding (batchSize x) (openScanner x place field range)
      (ofInterval q firstDay lastDay (batchSize x) false
        (openScanner x place field range))).CutOff (IsFault x)
    (holding (batchSize y) (openScanner y place field range)
      (ofInterval q firstDay lastDay (batchSize y) false
        (openScanner y place field range))) := by
  rcases reads_of_mends h place field range with
    ⟨e, e', hx, hy⟩ | ⟨b, ⟨s, hx, hb⟩, ⟨s', hy, hb'⟩, hmended, hfront, hcomplete, hvalues,
      hlate⟩
  · rw [hx, hy]
    exact .deferred
  · rw [hx, hy, ← h.batchSize]
    refine cutOff_holding ?_
    have hread : (Except.ok s : Except StoreError Scanner).bind
        (Batches.read (batchSize x) false) = .ok b := hb
    have hread' : (Except.ok s' : Except StoreError Scanner).bind
        (Batches.read (batchSize x) false) = .ok ⟨_, none⟩ := h.batchSize ▸ hb'
    obtain ⟨r, hr⟩ := exists_addEntries q firstDay lastDay .empty (isUidList_of_mended hmended)
    rw [ofInterval, ofInterval, hread, hread']
    dsimp only
    rw [hr]
    cases hadd : addEntries q firstDay lastDay .empty b.entries with
    | error err =>
      obtain ⟨e, he, herr⟩ := exists_of_addEntries hadd
      exact .failed (hvalues e.2 (List.mem_map_of_mem he) err herr)
    | ok found =>
      cases hb : b.late with
      | some e => exact .raised (hlate e hb)
      | none =>
        rw [hcomplete hb] at hadd
        obtain rfl : found = r :=
          Except.ok.inj ((addEntries_of_mended hmended hadd).symm.trans hr)
        exact .found (Merge.cutOff_ofList _)

/-! ### Streams -/

/-- Streams that are queued alike and left out alike. -/
def LostAlike (s t : Stream) : Prop :=
  Stream.QueuedAlike s t ∧ (s.context = .skipped ↔ t.context = .skipped)

theorem lostAlike_self (s : Stream) : LostAlike s s := ⟨⟨rfl, Iff.rfl⟩, Iff.rfl⟩

theorem lostAlike_of_takesPart {s t : Stream} (hs : s.context.TakesPart)
    (ht : t.context.TakesPart) : LostAlike s t :=
  ⟨⟨(Stream.isLost_of_ne_pending hs.1).trans (Stream.isLost_of_ne_pending ht.1).symm,
    iff_of_false hs.1 ht.1⟩, iff_of_false hs.2 ht.2⟩

theorem takesPart_joinAny (q : Query) (ss : List Stream) :
    (joinAny q ss).value.context.TakesPart := by
  have hcontext : ((Merge.Disjunction.ofStreams (Stream.opsFor ss) q ss).value).context.TakesPart :=
    by
    rw [Merge.Disjunction.ofStreams, Merge.Disjunction.context_refill]
    exact Merge.Disjunction.takesPart_contextOf _ _
  rw [joinAny, Raising.value_bind, Raising.value_pure]
  split
  · exact ⟨Merge.Context.noConfusion, Merge.Context.noConfusion⟩
  · exact ⟨Merge.Context.noConfusion, Merge.Context.noConfusion⟩
  · exact hcontext

theorem takesPart_joinAll (q : Query) (ss : List Stream) :
    (joinAll q ss).value.context.TakesPart := by
  rw [joinAll, Raising.value_bind, Raising.value_pure]
  split
  · exact ⟨Merge.Context.noConfusion, Merge.Context.noConfusion⟩
  · exact Merge.Conjunction.takesPart_ofStreams q ss

/-- Workers are lost in both contexts alike, whatever is read. -/
theorem parallel_lostAlike (h : Mends x y t t') :
    Parallel .values x y LostAlike fun _ _ => True where
  config := h.config
  counts := h.counts
  skipped h := h.2
  queued h := h.1
  listed _ _ := lostAlike_self _
  delayed _ := lostAlike_self _
  omitted _ := lostAlike_self _
  term place q field value :=
    ⟨⟨Leaf.isAbandoned_of_cutOff (cutOff_ofTerm h place q field value), Iff.rfl⟩, Iff.rfl⟩
  interval place q field lower upper li ui := by
    unfold interval
    dsimp only
    split
    · exact lostAlike_self _
    · rw [← h.config]
      exact ⟨⟨Leaf.isAbandoned_of_cutOff (cutOff_ofInterval h place q field _ _ _), Iff.rfl⟩,
        Iff.rfl⟩
  await {s t} hst := by
    rw [Stream.await, Stream.await, hst.1.1]
    split
    · exact makesLike_throw (.error .abandoned)
    · exact makesLike_lift (C := .values) trivial
  any q ss ts _ := lostAlike_of_takesPart (takesPart_joinAny q ss) (takesPart_joinAny q ts)
  all q ss ts _ := lostAlike_of_takesPart (takesPart_joinAll q ss) (takesPart_joinAll q ts)

theorem madeCutOff_leaf {l m : Leaf} (h : Leaf.CutOff P l m) :
    Stream.MadeCutOff P (.leaf l) (.leaf m) :=
  .alike (k := 1) (.leaf h)

theorem queuedAlike_of_madeCutOff {s t : Stream} (h : Stream.MadeCutOff P s t) :
    Stream.QueuedAlike s t := by
  refine ⟨?_, by rw [Stream.context_of_madeCutOff h]⟩
  cases h with
  | pending hl => exact Leaf.isAbandoned_of_cutOff hl
  | alike hst =>
    obtain ⟨hs, ht⟩ := Stream.settled_of_alike Leaf.leafSimilar_cutOff (Nat.le_refl _) hst
    rw [Stream.isLost_of_settled hs, Stream.isLost_of_settled ht]

theorem await_cutOff {s t : Stream} (h : Stream.MadeCutOff P s t) :
    MakesLike (.untilError P) (fun s t => ∃ k, Stream.Alike (Leaf.CutOff P) k s t)
      s.await t.await := by
  have hlost := (queuedAlike_of_madeCutOff h).1
  cases h with
  | pending hl =>
    rw [Stream.await, Stream.await, ← hlost]
    split
    · exact makesLike_throw (.error .abandoned)
    · next hnot =>
      exact makesLike_lift (Merge.Comparison.map (Leaf.resolve_cutOff hl (Bool.eq_false_iff.mpr hnot))
        fun _ _ h => ⟨1, .leaf h⟩)
  | alike hst =>
    obtain ⟨hs, ht⟩ := Stream.settled_of_alike Leaf.leafSimilar_cutOff (Nat.le_refl _) hst
    rw [Stream.await_of_settled hs, Stream.await_of_settled ht]
    exact makesLike_pure ⟨_, hst⟩

variable {ss ts : List Stream}

theorem joinAny_cutOff (q : Query)
    (h : List.Forall₂ (fun s t => ∃ k, Stream.Alike (Leaf.CutOff P) k s t) ss ts) :
    (Merge.Comparison.untilError P).Rel (Stream.MadeCutOff P) (joinAny q ss) (joinAny q ts) := by
  obtain ⟨hheight, hall⟩ := Stream.heightOfAll_of_alike h
  rw [joinAny, joinAny, Stream.opsFor, Stream.opsFor, ← hheight]
  refine Merge.Comparison.bind _ (Merge.Disjunction.ofStreams_similar (Stream.similar
    Leaf.leafSimilar_cutOff (Nat.le_refl _) (Nat.le_refl _)) q hall) fun d e hde => ?_
  refine Merge.Comparison.pure _ ?_
  rw [hde.context]
  cases e.context with
  | absent => exact madeCutOff_leaf ⟨rfl, .absent⟩
  | delayed => exact madeCutOff_leaf ⟨rfl, .delayed⟩
  | _ => exact .alike (k := _ + 1) (.disjunction hde)

theorem joinAll_cutOff (q : Query)
    (h : List.Forall₂ (fun s t => ∃ k, Stream.Alike (Leaf.CutOff P) k s t) ss ts) :
    (Merge.Comparison.untilError P).Rel (Stream.MadeCutOff P) (joinAll q ss) (joinAll q ts) := by
  obtain ⟨hheight, hall⟩ := Stream.heightOfAll_of_alike h
  rw [joinAll, joinAll, Stream.opsFor, Stream.opsFor, ← hheight]
  refine Merge.Comparison.bind _ (Merge.Conjunction.ofStreams_similar (Stream.similar
    Leaf.leafSimilar_cutOff (Nat.le_refl _) (Nat.le_refl _)) q hall) fun i j hij => ?_
  refine Merge.Comparison.pure _ ?_
  rw [hij.context]
  split
  · exact madeCutOff_leaf ⟨rfl, .absent⟩
  · exact .alike (k := _ + 1) (.conjunction hij)

/-- Streams go along with those in the mended context until they meet a fault. -/
theorem parallel_cutOff (h : Mends x y t t') :
    Parallel (.untilError (IsFault x)) x y (Stream.MadeCutOff (IsFault x))
      fun s s' => ∃ k, Stream.Alike (Leaf.CutOff (IsFault x)) k s s' where
  config := h.config
  counts := h.counts
  skipped h := by rw [Stream.context_of_madeCutOff h]
  queued := queuedAlike_of_madeCutOff
  listed q cs := madeCutOff_leaf (Leaf.ofList_cutOff q cs)
  delayed q := madeCutOff_leaf ⟨rfl, .delayed⟩
  omitted q := madeCutOff_leaf ⟨rfl, .skipped⟩
  term place q field value := .pending (cutOff_ofTerm h place q field value)
  interval place q field lower upper li ui := by
    unfold interval
    dsimp only
    split
    · exact madeCutOff_leaf ⟨rfl, .absent⟩
    · rw [← h.config]
      exact .pending (cutOff_ofInterval h place q field _ _ _)
  await hst := await_cutOff hst
  any q ss ts hst := joinAny_cutOff q hst
  all q ss ts hst := joinAll_cutOff q hst

end ShardedSearch.Lookup
