import ShardedSearch.Proofs.Merge.Interleaving
import ShardedSearch.Proofs.Plan.Ranges

/-! # Ascending shards

No shard comes behind a greater one, be it planned or read off a merge. Plans come in the order
of the sources of their clauses, which name all shards by date and number; a merge of streams in
order stays in order whatever its reader does.
-/

namespace ShardedSearch

open Merge (Stream)
open Merge.Stream (IsBuilt Operation emitted)

namespace PlanRun

/-- Shards come in strictly ascending order: those that a run plans between years of four digits,
whatever the query and the index, and those that advances return of a stream that is built from
ascending leaves, whatever else is done with it. -/
theorem shards_ascend :
    (∀ (x : LookupContext) (t : Store.Table) (q : Query) (r : PlanRun) (n : Nat),
      start x q = .ok r → Lookup.Opens x t →
      0 ≤ x.config.first.year → x.config.last.year ≤ 9999 →
      ((PlanStream.lookup r).shards n).Pairwise (· < ·) ∧
        ((PlanStream.lookup r).shards n).Nodup) ∧
    ∀ (s : Stream) (os : List Operation), s.IsBuilt → (emitted os s).Pairwise (· < ·) := by
  refine ⟨fun x t q r n hrun hx hfirst hlast => ?_, fun s os hs => ?_⟩
  · have hasc := ascending_of_start hrun hx hfirst hlast n
    exact ⟨hasc, hasc.imp KeyOrder.ne_of_lt⟩
  · exact hs.ordered.pairwise_emitted Merge.spacing_lt os

def dayLeaves : List Stream :=
  [.leaf (.ofList (.equals "A" "1")
      [⟨"20240102", .unknown .true⟩, ⟨"20240103_1", .unknown .true⟩]),
    .leaf (.ofList (.equals "A" "2")
      [⟨"20240102_3", .unknown .true⟩, ⟨"20240103_7", .unknown .true⟩])]

theorem isBuilt_dayLeaves : ∀ s ∈ dayLeaves, s.IsBuilt := by
  refine List.forall_mem_cons.mpr ⟨.leaf ?_, List.forall_mem_singleton.mpr (.leaf ?_)⟩
  · decide +kernel
  · decide +kernel

def askingReader : List Operation :=
  [.peek, .advance, .answer "20240103_1", .seek "20240103", .advance, .advance]

theorem shards_ascend_dayQuery :
    (∃ run, start dayPlanner.lookupContext dayQuery = .ok run ∧
      (PlanStream.lookup run).shards 5 = ["20240102", "20240103"] ∧
      ((PlanStream.lookup run).shards 5).Pairwise (· < ·)) ∧
    ∃ d, (Stream.anyOf dayQuery dayLeaves none).run.value = .ok d ∧
      emitted askingReader (.disjunction d) = ["20240102", "20240103_7"] ∧
      (emitted askingReader (.disjunction d)).Pairwise (· < ·) := by
  refine ⟨?_, _, rfl, by decide +kernel, ?_⟩
  · have hshards : (start dayPlanner.lookupContext dayQuery).toOption.map
        (fun run => (PlanStream.lookup run).shards 5) = some ["20240102", "20240103"] := by
      decide +kernel
    cases hrun : start dayPlanner.lookupContext dayQuery with
    | error e =>
      rw [hrun] at hshards
      cases hshards
    | ok run =>
      rw [hrun] at hshards
      exact ⟨run, rfl, Option.some.inj hshards, (shards_ascend.1 _ _ _ run 5 hrun opens_dayPlanner
        (by decide) (by decide)).1⟩
  · have hmade : (Stream.anyOf dayQuery dayLeaves none).run.value = .ok _ := rfl
    exact shards_ascend.2 _ askingReader (.anyOf isBuilt_dayLeaves hmade)

end PlanRun

end ShardedSearch
