import ShardedSearch.Lookup.Enumeration
import ShardedSearch.Proofs.Index.ShardCountScan

/-! # Shards of recorded days

With counts from the metadata table, the shards of some days are listed as the table records
them, unless a count is too large for a list. If the table could not be read to its end, the
days stand for themselves.
-/

namespace ShardedSearch.Lookup

open Calendar (Date)
open Index (HasCount Layout.shardCountFamily Layout.shardCountKey Layout.shardCountRow ReadsCounts
  ShardCounts)

variable {q : Query} {counts : ShardCounts}

theorem shards_shardsOfDays (q : Query) (days : List String) (counts : ShardCounts) :
    (shardsOfDays q days counts).map (·.shard) = days.flatMap counts.expand := by
  rw [shardsOfDays, List.map_map]
  exact List.map_id _

theorem shardsOfDays?_eq_none_iff {days : List String} :
    shardsOfDays? q days counts = none ↔
      ∃ day ∈ days, bytesMax < counts.count day * ShardCounts.idBytes := by
  have hlist : ∀ day, counts.canList day = false ↔
      bytesMax < counts.count day * ShardCounts.idBytes := fun day => by
    rw [ShardCounts.canList, decide_eq_false_iff_not, Nat.not_le]
  rw [shardsOfDays?, ite_eq_right_iff]
  simp [hlist]

theorem eq_of_mem_shardsOfDays? {days : List String} {ids : List ShardId}
    (h : ids ∈ (shardsOfDays? q days counts).map (List.map (·.shard))) :
    ids = days.flatMap counts.expand := by
  obtain ⟨cs, hcs, rfl⟩ := Option.map_eq_some_iff.mp h
  rw [shardsOfDays?_eq_some hcs]
  exact shards_shardsOfDays ..

/-- With counts that are loaded once, the shards of days are listed in ascending order: those
that the table has counts for, as long as there can be memory for them, or the days alone if
its counts cannot be read. -/
theorem shardsOfDays?_of_load (store : Store) (table : String) (q : Query) {days : List Date}
    (hyear : ∀ d ∈ days, d.HasShortYear) (hasc : days.Pairwise fun d e => ¬ e ≤ d) :
    let counts := ShardCounts.unread.load store table
    let ids? := (shardsOfDays? q (days.map Date.text) counts).map (List.map (·.shard))
    (∀ ids ∈ ids?, ids.Pairwise (· < ·)) ∧
      (∀ t, ReadsCounts store table t →
        (ids? = none ↔
          ∃ d ∈ days, ∃ n, HasCount t d.text n ∧ bytesMax < n * ShardCounts.idBytes) ∧
        ∀ ids ∈ ids?, ∀ id, id ∈ ids ↔
          ∃ d ∈ days, ∃ n, HasCount t d.text n ∧ ShardCounts.StandsFor d.text n id) ∧
      ((∀ t, ¬ ReadsCounts store table t) → ids? = some (days.map Date.text)) ∧
      ∀ store' table', counts.load store' table' = counts := by
  intro counts ids?
  refine ⟨fun ids hids => ?_, fun t ht => ⟨?_, fun ids hids id => ?_⟩, fun hnone => ?_,
    fun store' table' => ShardCounts.load_load ..⟩
  · rw [eq_of_mem_shardsOfDays? hids]
    exact Date.ascending_expand hyear hasc
  · simp only [ids?, Option.map_eq_none_iff, shardsOfDays?_eq_none_iff, List.mem_map,
      exists_exists_and_eq_and, ShardCounts.exists_hasCount_iff ht, counts]
  · simp only [eq_of_mem_shardsOfDays? hids, List.flatMap_map, List.mem_flatMap,
      ShardCounts.exists_hasCount_iff ht, ShardCounts.mem_expand_iff, counts]
  · have hempty : counts = ⟨.empty, true⟩ := ShardCounts.load_of_not_reads hnone
    have hcount : ∀ day, counts.count day = 0 := fun day => by rw [hempty]; rfl
    have hday : counts.expand = fun day => [day] := funext fun day =>
      ShardCounts.expand_of_count_eq_zero (hcount day)
    cases hids : ids? with
    | some ids => rw [eq_of_mem_shardsOfDays? hids, hday, List.flatMap_singleton']
    | none =>
      obtain ⟨day, -, h⟩ := shardsOfDays?_eq_none_iff.mp (Option.map_eq_none_iff.mp hids)
      rw [hcount day] at h
      exact absurd h (Nat.not_lt_zero _)

def countTable (count : Nat) : Store.Table :=
  .ofList [(Layout.shardCountKey "20240111" count, []), (Layout.shardCountKey "20240112" 0, []),
    (⟨Layout.shardCountRow, Layout.shardCountFamily, "20240113_many"⟩, [])]

/-- Answers just as many reads as it takes to find no more counts. -/
def countStore (count : Nat) : Store :=
  ⟨.ofList [("metadata", countTable count)], .empty, fun _ _ => some 4⟩

def countedDays : List Date :=
  [⟨2024, 10, Date.small.year_mem, by decide⟩, ⟨2024, 11, Date.small.year_mem, by decide⟩,
    ⟨2024, 12, Date.small.year_mem, by decide⟩]

theorem hasShortYear_countedDays : ∀ d ∈ countedDays, d.HasShortYear := by
  intro d hd
  have hd : d.year = 2024 := by
    rcases List.mem_cons.mp hd with rfl | hd
    · rfl
    · rcases List.mem_pair.mp hd with rfl | rfl <;> rfl
  exact ⟨by omega, by omega⟩

theorem readsCounts_countStore : ReadsCounts (countStore 11) "metadata" (countTable 11) where
  available := by decide
  get? := by decide +kernel
  answers l hl := by
    obtain rfl := Option.some.inj hl
    decide +kernel

theorem shardsOfDays?_of_load_countStore :
    (∀ d ∈ countedDays, d.HasShortYear) ∧ (countedDays.Pairwise fun d e => ¬ e ≤ d) ∧
      let ids? := (shardsOfDays? (.equals "A" "1") (countedDays.map Date.text)
        (ShardCounts.unread.load (countStore 11) "metadata")).map (List.map (·.shard))
      ids?.isSome ∧ ∀ ids ∈ ids?, ids.Pairwise (· < ·) ∧ ∀ id, id ∈ ids ↔
        ∃ d ∈ countedDays, ∃ n, HasCount (countTable 11) d.text n ∧
          ShardCounts.StandsFor d.text n id := by
  have hasc : countedDays.Pairwise fun d e => ¬ e ≤ d := by decide
  obtain ⟨hids, hmem, -⟩ := shardsOfDays?_of_load (countStore 11) "metadata" (.equals "A" "1")
    hasShortYear_countedDays hasc
  exact ⟨hasShortYear_countedDays, hasc, by decide +kernel, fun ids h =>
    ⟨hids ids h, (hmem _ readsCounts_countStore).2 ids h⟩⟩

/-- Any number may be recorded, but so many shards cannot be listed. -/
theorem shardsOfDays?_eq_none_countStore :
    ReadsCounts (countStore (2 ^ 64 - 1)) "metadata" (countTable (2 ^ 64 - 1)) ∧
      (∀ d ∈ countedDays, d.HasShortYear) ∧ (countedDays.Pairwise fun d e => ¬ e ≤ d) ∧
      HasCount (countTable (2 ^ 64 - 1)) "20240111" (2 ^ 64 - 1) ∧
      shardsOfDays? (.equals "A" "1") (countedDays.map Date.text)
        (ShardCounts.unread.load (countStore (2 ^ 64 - 1)) "metadata") = none := by
  have hreads : ReadsCounts (countStore (2 ^ 64 - 1)) "metadata" (countTable (2 ^ 64 - 1)) := by
    refine ⟨by decide, by decide +kernel, fun l hl => ?_⟩
    obtain rfl := Option.some.inj hl
    decide +kernel
  have hcount : (ShardCounts.unread.load (countStore (2 ^ 64 - 1)) "metadata").count "20240111" =
      2 ^ 64 - 1 := by decide +kernel
  refine ⟨hreads, hasShortYear_countedDays, by decide, (ShardCounts.count_load_iff hreads).mp hcount,
    shardsOfDays?_eq_none_iff.mpr ⟨"20240111", by decide +kernel, ?_⟩⟩
  rw [hcount]
  decide

end ShardedSearch.Lookup
