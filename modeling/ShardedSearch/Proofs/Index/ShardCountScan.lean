import ShardedSearch.Proofs.Index.ShardCounts
import ShardedSearch.Proofs.Number.Integer
import ShardedSearch.Proofs.Store.Ranges
import ShardedSearch.Proofs.Text.Separator

/-! # Loading shard counts

Once they are loaded, the counts are those that the metadata table records, all of them, if the
table has answered every read, and none at all if one read has failed. Loading them again
changes nothing.
-/

namespace ShardedSearch.Index

open Store (Entry Table Range)

/-! ### Recorded counts -/

theorem eq_ok_of_toOption {ε α : Type} {r : Except ε α} {a : α} (h : r.toOption = some a) :
    r = .ok a := by
  cases r with
  | ok b => exact congrArg Except.ok (Option.some.inj h)
  | error e => cases h

namespace Layout

variable {qualifier day : String} {n m : Nat}

/-- Whether a qualifier is that of a shard count: after its last mark it has a 64-bit word. -/
def WritesCount (qualifier day : String) (n : Nat) : Prop :=
  ∃ cs, qualifier.toList = day.toList ++ Shard.mark :: cs ∧ Number.Writes cs n ∧ n < 2 ^ 64

theorem ofShardCountQualifier?_eq_some_iff :
    ofShardCountQualifier? qualifier = some (day, n) ↔ WritesCount qualifier day n := by
  have hcut : ∀ {cs}, qualifier.toList = day.toList ++ Shard.mark :: cs → Number.Writes cs n →
      Text.cutLast? Shard.mark qualifier.toList = some (day.toList, cs) := fun heq hw =>
    Text.cutLast?_eq_some_iff.mpr ⟨heq, fun hmem => by
      rcases hw.eq_or_isDigit hmem with h | h <;> exact absurd h (by decide)⟩
  rw [ofShardCountQualifier?, Text.splitLast?]
  constructor
  · intro h
    split at h
    · next day' count hsplit =>
      obtain ⟨⟨as, bs⟩, hp, hpair⟩ := Option.map_eq_some_iff.mp hsplit
      obtain ⟨rfl, rfl⟩ := Prod.mk.inj hpair
      obtain ⟨n', hn, hpair⟩ := Option.map_eq_some_iff.mp h
      obtain ⟨rfl, rfl⟩ := Prod.mk.inj hpair
      have hcount := Number.unsigned_eq_ok_iff.mp (eq_ok_of_toOption hn)
      rw [String.toList_ofList] at hcount
      rw [WritesCount, String.toList_ofList]
      exact ⟨bs, (Text.cutLast?_eq_some_iff.mp hp).1, hcount⟩
    · cases h
  · rintro ⟨cs, heq, hw, hn⟩
    have hcount : Number.unsigned (String.ofList cs) = .ok n :=
      Number.unsigned_eq_ok_iff.mpr ⟨by rwa [String.toList_ofList], hn⟩
    rw [hcut heq hw, Option.map_some, String.ofList_toList]
    dsimp only
    rw [hcount]
    rfl

theorem ofShardCountQualifier?_ofDay (day : String) (h : n < 2 ^ 64) :
    ofShardCountQualifier? (Shard.ofDay day n) = some (day, n) :=
  ofShardCountQualifier?_eq_some_iff.mpr
    ⟨Nat.toDigits 10 n, toList_ofDay day n, Number.writes_toDigits n, h⟩

end Layout

structure RecordsCount (t : Table) (e : Entry) (day : String) (n : Nat) : Prop where
  mem : e ∈ t.toList
  row : e.1.row = Layout.shardCountRow
  family : e.1.family = Layout.shardCountFamily
  qualifier : Layout.WritesCount e.1.qualifier day n

/-- Whether a table has a count for a day: that of the latest day not after it which has one, the
last of them in key order if that day has several, and zero if there is no such day. -/
inductive HasCount (t : Table) (day : String) : Nat → Prop
  | recorded {e : Entry} {d : String} {n : Nat} (records : RecordsCount t e d n)
      (reached : ¬ day < d)
      (latest : ∀ e' d' m, RecordsCount t e' d' m → ¬ day < d' → ¬ d < d')
      (last : ∀ e' m, RecordsCount t e' d m → ¬ e.1 < e'.1) : HasCount t day n
  | unrecorded (later : ∀ e d n, RecordsCount t e d n → day < d) : HasCount t day 0

def countEntries (t : Table) : List Entry :=
  t.toList.filter fun e =>
    e.1.row = Layout.shardCountRow ∧ e.1.family = Layout.shardCountFamily

theorem recordsCount_iff {t : Table} {e : Entry} {day : String} {n : Nat} :
    RecordsCount t e day n ↔
      e ∈ countEntries t ∧ Layout.ofShardCountQualifier? e.1.qualifier = some (day, n) := by
  rw [countEntries, List.mem_filter, decide_eq_true_eq, Layout.ofShardCountQualifier?_eq_some_iff]
  exact ⟨fun h => ⟨⟨h.mem, h.row, h.family⟩, h.qualifier⟩,
    fun ⟨⟨hmem, hrow, hfamily⟩, hq⟩ => ⟨hmem, hrow, hfamily, hq⟩⟩

def countsOf (t : Table) : SortedMap String Nat :=
  .ofList ((countEntries t).filterMap fun e => Layout.ofShardCountQualifier? e.1.qualifier)

/-- Whether the counts of a store can be read from a table: it is there, it is available, and it
answers a read for each of their entries and one more. -/
structure ReadsCounts (store : Store) (table : String) (t : Table) : Prop where
  available : table ∉ store.unavailable
  get? : store.tables.get? table = some t
  answers : ∀ l ∈ store.readLimit table (some (.row Layout.shardCountRow)),
    (countEntries t).length < l

namespace ShardCounts

variable {store : Store} {table day : String} {t : Table} {n : Nat} {c : ShardCounts}

theorem scan_eq_ok_iff {counts : SortedMap String Nat} :
    scan store table = .ok counts ↔ ∃ t, ReadsCounts store table t ∧ counts = countsOf t := by
  have hentries : ∀ t : Table, (t.toList.filter fun e =>
      (Range.row Layout.shardCountRow).contains e.1 && (List.isEmpty [Layout.shardCountFamily] ||
        e.1.family ∈ [Layout.shardCountFamily])) = countEntries t := by
    intro t
    refine List.filter_congr fun e _ => ?_
    rw [Bool.eq_iff_iff, Bool.and_eq_true, Range.contains_row_iff]
    simp
  rw [scan]
  cases hscan : store.scanRange table [Layout.shardCountFamily] (.row Layout.shardCountRow) with
  | ok es =>
    obtain ⟨hoff, t, hget, hes, hlimit⟩ := Store.scanRange_eq_ok_iff.mp hscan
    rw [hentries] at hes
    subst hes
    rw [Except.map, Except.ok.injEq]
    constructor
    · rintro rfl
      exact ⟨t, ⟨hoff, hget, hlimit⟩, rfl⟩
    · rintro ⟨t', h, rfl⟩
      rw [Option.some.inj (hget.symm.trans h.get?)]
      rfl
  | error e =>
    refine iff_of_false nofun ?_
    rintro ⟨t, h, -⟩
    have hok : store.scanRange table [Layout.shardCountFamily] (.row Layout.shardCountRow) =
        .ok (countEntries t) := Store.scanRange_eq_ok_iff.mpr
      ⟨h.available, t, h.get?, (hentries t).symm, h.answers⟩
    cases hscan.symm.trans hok

theorem load_of_reads (h : ReadsCounts store table t) :
    unread.load store table = ⟨countsOf t, true⟩ := by
  have hunread : ¬ unread.loaded = true := Bool.false_ne_true
  rw [load, if_neg hunread, scan_eq_ok_iff.mpr ⟨t, h, rfl⟩]

theorem load_of_not_reads (h : ∀ t, ¬ ReadsCounts store table t) :
    unread.load store table = ⟨.empty, true⟩ := by
  have hunread : ¬ unread.loaded = true := Bool.false_ne_true
  rw [load, if_neg hunread]
  split
  · next counts hscan =>
    obtain ⟨t, ht, -⟩ := scan_eq_ok_iff.mp hscan
    exact absurd ht (h t)
  · rfl

theorem load_load (store store' : Store) (table table' : String) (c : ShardCounts) :
    (c.load store table).load store' table' = c.load store table := by
  have hloaded : (c.load store table).loaded = true := by
    unfold load
    split
    · next h => exact h
    · split <;> rfl
  rw [load, if_pos hloaded]

theorem mem_countsOf_iff {d : String} : (d, n) ∈ (countsOf t).toList ↔
    ∃ e, RecordsCount t e d n ∧ ∀ e' m, RecordsCount t e' d m → ¬ e.1 < e'.1 := by
  have hasc : (countEntries t).Pairwise (·.1 < ·.1) := t.ascending.sublist List.filter_sublist
  rw [countsOf, SortedMap.mem_ofList_filterMap_iff hasc]
  simp only [recordsCount_iff, and_assoc, and_imp]
  exact exists_congr fun e => and_congr_right fun _ => and_congr_right fun _ =>
    ⟨fun h e' m he' hm => h e' he' m hm, fun h e' he' m hm => h e' m he' hm⟩

theorem exists_mem_countsOf {e : Entry} {d : String} (h : RecordsCount t e d n) :
    ∃ m, (d, m) ∈ (countsOf t).toList := by
  obtain ⟨hmem, hq⟩ := recordsCount_iff.mp h
  exact SortedMap.exists_mem_ofList_iff.mpr ⟨n, List.mem_filterMap.mpr ⟨e, hmem, hq⟩⟩

theorem count_load_iff (h : ReadsCounts store table t) :
    (unread.load store table).count day = n ↔ HasCount t day n := by
  rw [load_of_reads h, count]
  constructor
  · rintro rfl
    cases hfloor : (countsOf t).floor? day with
    | none =>
      refine .unrecorded fun e d n hr => ?_
      obtain ⟨m, hm⟩ := exists_mem_countsOf hr
      exact SortedMap.floor?_eq_none_iff.mp hfloor _ hm
    | some p =>
      obtain ⟨hmem, hreached, hlatest⟩ := SortedMap.floor?_eq_some_iff.mp hfloor
      obtain ⟨e, hr, hlast⟩ := mem_countsOf_iff.mp hmem
      refine .recorded hr hreached (fun e' d' m hr' hle => ?_) hlast
      obtain ⟨m', hm'⟩ := exists_mem_countsOf hr'
      exact hlatest _ hm' hle
  · intro hcount
    cases hcount with
    | recorded hr hreached hlatest hlast =>
      have hmem := mem_countsOf_iff.mpr ⟨_, hr, hlast⟩
      have hfloor := SortedMap.floor?_eq_some_iff.mpr ⟨hmem, hreached, fun a ha hle => by
        obtain ⟨e', hr', -⟩ := mem_countsOf_iff.mp ha
        exact hlatest e' a.1 a.2 hr' hle⟩
      rw [hfloor]
      rfl
    | unrecorded hlater =>
      have hfloor : (countsOf t).floor? day = none :=
        SortedMap.floor?_eq_none_iff.mpr fun a ha => by
          obtain ⟨e, hr, -⟩ := mem_countsOf_iff.mp ha
          exact hlater e a.1 a.2 hr
      rw [hfloor]
      rfl

theorem exists_hasCount_iff {P : Nat → Prop} (h : ReadsCounts store table t) :
    (∃ n, HasCount t day n ∧ P n) ↔ P ((unread.load store table).count day) :=
  ⟨fun ⟨_, hn, hp⟩ => (count_load_iff h).mpr hn ▸ hp,
    fun hp => ⟨_, (count_load_iff h).mp rfl, hp⟩⟩

end ShardCounts

end ShardedSearch.Index
