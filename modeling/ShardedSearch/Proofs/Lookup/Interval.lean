import ShardedSearch.Proofs.Lookup.Scan

/-! # What interval look-ups list

The entries of all terms between two values, merged by shard. If all values can be read, an
interval lists shards of entries between its days, in ascending order and with evidence for the
interval as a whole.
-/

namespace ShardedSearch.Lookup

open Index (Layout.shardOf)
open Store (Entry Table)

variable {q : Query} {firstDay lastDay : String} {es : List Entry} {t : Table}
variable {found found' : SortedMap ShardId Evidence}

theorem key_of_addEntries (h : addEntries q firstDay lastDay found es = .ok found') :
    ∀ a ∈ found'.toList, (∃ b ∈ found.toList, b.1 = a.1) ∨
      ∃ e ∈ es, Layout.shardOf e.1 = a.1 ∧
        ¬ (Shard.dayOf (Layout.shardOf e.1) < firstDay ∨
          lastDay < Shard.dayOf (Layout.shardOf e.1)) := by
  induction es generalizing found with
  | nil =>
    obtain rfl := Except.ok.inj h
    exact fun a ha => .inl ⟨a, ha, rfl⟩
  | cons e es ih =>
    rw [addEntries] at h
    split at h
    · intro a ha
      rcases ih h a ha with hb | ⟨f, hf, hfa⟩
      · exact .inl hb
      · exact .inr ⟨f, List.mem_cons_of_mem e hf, hfa⟩
    · next hday =>
      split at h
      · intro a ha
        rcases ih h a ha with ⟨b, hb, hba⟩ | ⟨f, hf, hfa⟩
        · rcases SortedMap.key_of_mem_insertInto hb with hk | ⟨d, hd, hdb⟩
          · exact .inr ⟨e, List.mem_cons_self, hk.symm.trans hba, hday⟩
          · exact .inl ⟨d, hd, hdb.trans hba⟩
        · exact .inr ⟨f, List.mem_cons_of_mem e hf, hfa⟩
      · cases h

theorem exists_addEntries (q : Query) (firstDay lastDay : String)
    (found : SortedMap ShardId Evidence) (h : ∀ e ∈ es, IsUidList e.2) :
    ∃ found', addEntries q firstDay lastDay found es = .ok found' := by
  induction es generalizing found with
  | nil => exact ⟨found, rfl⟩
  | cons e es ih =>
    have hes := fun found => ih found fun e' he => h e' (List.mem_cons_of_mem e he)
    obtain ⟨l, hl⟩ := h e List.mem_cons_self
    rw [addEntries, Evidence.ofValue, hl]
    split
    · exact hes _
    · exact hes _

theorem query_of_ofValue {v : Wire.Bytes} {ev : Evidence} (h : Evidence.ofValue q v = .ok ev) :
    ev.query = q := by
  rw [Evidence.ofValue] at h
  cases hv : Wire.ofBytes (α := Index.UidList) v with
  | error e =>
    rw [hv] at h
    cases h
  | ok l =>
    rw [hv] at h
    obtain rfl := Except.ok.inj h
    rfl

theorem query_of_addEntries (hq : q.disjuncts = [q])
    (hfound : ∀ id ev, found.get? id = some ev → ev.query = q)
    (h : addEntries q firstDay lastDay found es = .ok found') :
    ∀ id ev, found'.get? id = some ev → ev.query = q := by
  induction es generalizing found with
  | nil => exact Except.ok.inj h ▸ hfound
  | cons e es ih =>
    rw [addEntries] at h
    split at h
    · exact ih hfound h
    · split at h
      · next ev hev =>
        refine ih (fun id ev' hget => ?_) h
        have hquery := query_of_ofValue hev
        rw [SortedMap.get?_insertWith] at hget
        split at hget
        · cases hold : found.get? (Layout.shardOf e.1) with
          | none =>
            rw [hold] at hget
            obtain rfl := Option.some.inj hget
            exact hquery
          | some old =>
            rw [hold] at hget
            obtain rfl := Option.some.inj hget
            exact query_merge hq (hfound _ _ hold) hquery
        · exact hfound id ev' hget
      · cases h

theorem shards_mergedCandidates (found : SortedMap ShardId Evidence) :
    ((mergedCandidates found).map (·.shard)).Sublist (found.toList.map (·.1)) := by
  rw [mergedCandidates, List.map_map]
  exact List.filter_sublist.map _

theorem isListing_mergedCandidates (ht : IsShardIndex t) (hes : ∀ e ∈ es, e ∈ t.toList)
    (hq : q.disjuncts = [q]) (hflat : q.IsFlat)
    (h : addEntries q firstDay lastDay .empty es = .ok found) :
    Candidate.IsListing (mergedCandidates found) := by
  refine ⟨?_, fun c hc => ?_, fun c hc => ?_⟩
  · exact List.pairwise_map.mp
      ((List.pairwise_map.mpr found.ascending).sublist (shards_mergedCandidates found))
  · obtain ⟨a, ha, rfl⟩ := List.mem_map.mp hc
    rcases key_of_addEntries h a (List.mem_filter.mp ha).1 with ⟨b, hb, -⟩ | ⟨e, he, hshard, -⟩
    · cases hb
    · exact hshard ▸ (ht e (hes e he)).1
  · obtain ⟨a, ha, rfl⟩ := List.mem_map.mp hc
    have hget := SortedMap.get?_eq_some_iff.mpr (List.mem_filter.mp ha).1
    rw [query_of_addEntries hq (fun _ _ hnone => by cases hnone) h a.1 a.2 hget]
    exact hflat

end ShardedSearch.Lookup
