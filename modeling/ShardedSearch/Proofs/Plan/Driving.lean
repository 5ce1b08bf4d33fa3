import ShardedSearch.Proofs.Lookup.Parts
import ShardedSearch.Proofs.Plan.Indexed

/-! # Runs that mixed parts drive

A conjunction whose parts are deferred or mixed has plans just for the shards that each mixed
part has an indexed hit in. What a part defers could hold anywhere, but does not choose a shard:
a record is found if its shard has indexed hits for every mixed part, and else it is lost.
-/

namespace ShardedSearch

open Lookup
open Merge (Reading Stream)
open Store (Table)

variable {x : LookupContext} {t : Table} {q : Query} {cs ds : List Query} {i : Nat} {c : Query}
variable {id : ShardId} {docs : List Document} {truth : Document → Query → Bool} {s : Stream}

namespace PlanRun

variable {run : PlanRun}

/-- Whether the parts of a whole query are deferred or mixed, some of them mixed. -/
structure MixedOnly (x : LookupContext) (cs : List Query) : Prop where
  unpositioned : ∀ s, HasPart x [] cs s → s.context ≠ .present ∧ s.context ≠ .absent
  mixed : ∃ s, HasPart x [] cs s ∧ s.context = .mixed

/-- Whether every mixed part of a whole query has a present alternative of some kind. -/
def EachMixedHas (x : LookupContext) (cs : List Query) (P : Query → Stream → Prop) : Prop :=
  ∀ i c s, cs[i]? = some c → lookUp x [i] c = pure s → s.context = .mixed →
    ∃ ds, c = .or ds ∧ ∃ j d p, ds[j]? = some d ∧ lookUp x [j, i] d = pure p ∧
      p.context = .present ∧ P d p

theorem covers_iff_of_emits {ks : List Candidate} (h : run.Emits ks) :
    (PlanStream.lookup run).Covers id ↔
      run.config.admits id = true ∧ ∃ k ∈ ks, k.shard = id := by
  rw [PlanStream.Covers, drain_of_emits h]
  constructor
  · rintro ⟨p, hp, rfl⟩
    obtain ⟨k, hk, hmake⟩ := List.mem_filterMap.mp (PlanStream.ok_mem_map_ok_iff.mp hp)
    rw [ShardPlan.shard_of_make? hmake]
    exact ⟨ShardPlan.admits_of_make? hmake, k, hk, rfl⟩
  · rintro ⟨hadmits, k, hk, rfl⟩
    obtain ⟨p, hp, hshard⟩ : ∃ p, ShardPlan.ofCandidate? run.config k = some p ∧
      p.shard = k.shard := ShardPlan.make?_eq_some_of_admits hadmits
    exact ⟨p, PlanStream.ok_mem_map_ok_iff.mpr (List.mem_filterMap.mpr ⟨k, hk, hp⟩), hshard⟩

theorem isFlat_of_getElem? (hq : (Query.and cs).IsFlat) (hc : cs[i]? = some c) :
    c.IsFlat ∧ ∀ ds, c ≠ .and ds := by
  rw [Query.IsFlat] at hq
  have hmem := List.mem_of_getElem? hc
  have hflat := Query.flatAll_iff.mp hq.2.2 c hmem
  refine ⟨hflat, ?_⟩
  rintro ds rfl
  have hself : ds = [.and ds] := hq.2.1 _ hmem
  rw [Query.IsFlat] at hflat
  exact hflat.1 (congrArg List.length hself)

theorem lists_part_iff (hscan : ReturnsOrFails x t) (ht : IsShardIndex t)
    (hq : (Query.and cs).IsFlat) (hids : EnumeratesShards x (.and cs)) (hc : cs[i]? = some c)
    (hs : lookUp x [i] c = pure s) (hmixed : s.context = .mixed) :
    s.Lists id ↔ ∃ ds, c = .or ds ∧ ∃ j d p, ds[j]? = some d ∧ lookUp x [j, i] d = pure p ∧
      p.context = .present ∧ p.Lists id := by
  obtain ⟨hflat, hnot⟩ := isFlat_of_getElem? hq hc
  obtain ⟨ds, rfl | rfl⟩ := exists_join_of_mixed hs hmixed
  · exact absurd rfl (hnot ds)
  have hids' : EnumeratesShards x (.or ds) := fun c' hc' =>
    hids c' (.and (List.mem_of_getElem? hc) hc')
  rw [lists_lookUp_or hscan ht hflat hids' hs hmixed]
  constructor
  · rintro ⟨p, ⟨j, d, hd, hp⟩, h⟩
    exact ⟨ds, rfl, j, d, p, hd, hp, h⟩
  · rintro ⟨ds', hds, j, d, p, hd, hp, h⟩
    obtain rfl := Query.or.inj hds
    exact ⟨p, ⟨j, d, hd, hp⟩, h⟩

theorem lists_of_satisfies {place : Place} (hindex : Records x.config docs t)
    (hscan : ReturnsOrFails x t) (htypes : x.config.settings.lookup.datatypes = [])
    (htruth : Agrees x.config docs truth) (hflat : q.IsFlat) (hq : q.IsPlannable x.config)
    (hs : lookUp x place q = pure s) (hpresent : s.context = .present) {d : Document}
    (hd : d ∈ docs) (hwithin : d.IsWithin x.config.first x.config.last)
    (hsat : d.Satisfies truth q) : s.Lists d.shard := by
  obtain ⟨r, hsound, hyields⟩ := exists_isSound_lookUp hindex (fun place field _ =>
    hscan place field _) htypes htruth place hflat hq
  have hvalue : (lookUp x place q).run.value = .ok s := by rw [hs]; rfl
  obtain ⟨-, hr⟩ := eq_of_yields hyields hvalue
  cases r with
  | present f =>
    obtain ⟨hlive, hkeeps⟩ := hsound
    obtain ⟨-, ks, hks, hat⟩ := hr
    have hdays := Index.Layout.inDays_ofDay_of_exists (n := d.number) d.year_mem hwithin.1
      hwithin.2 hlive
    obtain ⟨e, he, -⟩ := hkeeps.complete d ⟨hd, hdays⟩ hsat
    rw [Stream.lists_iff hks, hat, he]
    rfl
  | _ =>
    rw [Stream.context_of_realises hr] at hpresent
    cases hpresent

/-- A run that mixed parts drive is present. It has plans just for the shards, among those of the
pattern, in which every mixed part has an indexed hit. So a shard is planned if documents in it
satisfy a present alternative of every mixed part. -/
theorem covers_iff_of_mixedOnly (ht : IsShardIndex t) (hscan : ReturnsOrFails x t)
    (hids : EnumeratesShards x q.flatten) (hq : q.flatten = .and cs) (hcs : MixedOnly x cs)
    (hrun : start x q = .ok run) :
    run.context = .present ∧
      (∀ id, (PlanStream.lookup run).Covers id ↔
        x.config.admits id = true ∧ EachMixedHas x cs fun _ p => p.Lists id) ∧
      ∀ docs truth, Records x.config docs t → x.config.settings.lookup.datatypes = [] →
        Agrees x.config docs truth → ∀ id, x.config.admits id = true →
          (EachMixedHas x cs fun c _ => c.IsPlannable x.config ∧ ∃ d ∈ docs, d.shard = id ∧
            d.IsWithin x.config.first x.config.last ∧ d.Satisfies truth c) →
          (PlanStream.lookup run).Covers id := by
  have hflat : (Query.and cs).IsFlat := hq ▸ Query.isFlat_flatten q
  rw [hq] at hids
  obtain ⟨root, hvalue, -⟩ := eq_of_start hrun
  rw [hq] at hvalue
  obtain ⟨hroot, hcontext, hreadable, hlists⟩ := lookUp_and_of_driven hscan ht hflat hids
    hcs.unpositioned hcs.mixed hvalue
  obtain ⟨ks, hks, -⟩ := hreadable.2 hcontext
  obtain ⟨hemits, hpresent, hconfig⟩ := emits_of_start hrun (by rw [hq]; exact hroot)
    (by rw [hq, hcontext]; rfl) hks
  have hcovers : ∀ id, (PlanStream.lookup run).Covers id ↔
      x.config.admits id = true ∧ EachMixedHas x cs fun _ p => p.Lists id := by
    intro id
    rw [covers_iff_of_emits hemits, hconfig, ← Candidate.isSome_evidenceAt_iff,
      ← Stream.lists_iff hks, hlists]
    refine and_congr_right fun _ => ⟨fun h i c s hc hs hmixed => ?_, ?_⟩
    · exact (lists_part_iff hscan ht hflat hids hc hs hmixed).mp (h s ⟨i, c, hc, hs⟩ hmixed)
    · rintro h s ⟨i, c, hc, hs⟩ hmixed
      exact (lists_part_iff hscan ht hflat hids hc hs hmixed).mpr (h i c s hc hs hmixed)
  refine ⟨hpresent, hcovers, fun docs truth hindex htypes htruth id hadmits h => ?_⟩
  refine (hcovers id).mpr ⟨hadmits, fun i c s hc hs hmixed => ?_⟩
  obtain ⟨ds, rfl, j, d, p, hj, hp, hpresent, hplan, doc, hdoc, rfl, hwithin, hsat⟩ :=
    h i c s hc hs hmixed
  have hor := (isFlat_of_getElem? hflat hc).1
  rw [Query.IsFlat] at hor
  have hd := Query.flatAll_iff.mp hor.2.2 d (List.mem_of_getElem? hj)
  exact ⟨ds, rfl, j, d, p, hj, hp, hpresent,
    lists_of_satisfies hindex hscan htypes htruth hd hplan hp hpresent hdoc hwithin hsat⟩

/-! ### A record that is lost -/

/-- One shard has the value of a field that the other one lacks. -/
def splitIndex : Table :=
  .ofList [(Index.Layout.termKey "1" "A" "20240102_0" "log", [1, 0, 1, 1, 117]),
    (Index.Layout.termKey "1" "A" "20240102_1" "log", [1, 0, 1, 1, 117]),
    (Index.Layout.termKey "2" "A" "20240102_0" "log", [1, 0, 1, 1, 117])]

def splitPlanner : Planner where
  store := ⟨.ofList [("shardIndex", splitIndex)], .empty, fun _ _ => none⟩
  config := (smallPlanner 2).config
  counts := .ofList []

def foundDocument : Document := ⟨.small, smallDocument.year_mem, 0, "u", [("A", "1"), ("A", "2")]⟩

def lostDocument : Document := ⟨.small, smallDocument.year_mem, 1, "u", [("A", "1"), ("B", "x")]⟩

def splitParts : List Query :=
  [.or [.equals "A" "1", .regex "B" (some ".*")], .or [.equals "A" "2", .regex "B" (some ".*")]]

def anyText (d : Document) : Query → Bool
  | .regex field _ => d.pairs.any fun p => p.1 = field
  | q => d.shows q

theorem hasIndex_splitPlanner : HasIndex splitPlanner splitIndex where
  table := rfl
  available := SortedSet.not_mem_empty _
  unlimited _ := rfl
  valid := by
    intro e he
    have hvalue : ∀ e ∈ splitIndex.toList, Shard.isDay (Index.Layout.shardOf e.1) = false ∧
        e.2 = [1, 0, 1, 1, 117] := by decide +kernel
    obtain ⟨hday, hbytes⟩ := hvalue e he
    exact ⟨hday, .exact ["u"], by rw [hbytes]; decide⟩

theorem mirrors_splitIndex :
    Mirrors splitPlanner.config [foundDocument, lostDocument] splitIndex where
  valid := hasIndex_splitPlanner.valid
  recorded := by
    have hentry : ∀ d ∈ [foundDocument, lostDocument], ∀ p ∈ d.pairs,
        splitPlanner.config.isIndexed p.1 = true → d.uid = "u" ∧
          (Index.Layout.termKey p.2 p.1 d.shard "log", [1, 0, 1, 1, 117]) ∈ splitIndex.toList := by
      decide +kernel
    intro d hd p hp hindexed
    obtain ⟨huid, he⟩ := hentry d hd p hp hindexed
    exact ⟨"log", _, .exact ["u"], he, by decide, .inr (by rw [huid]; decide)⟩
  stems := by decide +kernel

theorem flatten_splitParts : (Query.and splitParts).flatten = .and splitParts := by decide

theorem returnsOrFails_splitPlanner : ReturnsOrFails splitPlanner.lookupContext splitIndex :=
  fun place _ range => .inl (sees_of_hasIndex hasIndex_splitPlanner place range)

theorem enumeratesShards_splitParts :
    EnumeratesShards splitPlanner.lookupContext (.and splitParts) := by
  have hnone : ∀ c d, d ∈ splitParts → Query.IsClauseOf c d →
      enumerated splitPlanner.lookupContext c = [] := by
    intro c d hd hc
    rcases List.mem_pair.mp hd with rfl | rfl
    all_goals
      cases hc with
      | self => rfl
      | or he hc =>
        rcases List.mem_pair.mp he with rfl | rfl
        all_goals
          cases hc
          rfl
  intro c hc id hid
  cases hc with
  | self => cases hid
  | and hd hc =>
    rw [hnone c _ hd hc] at hid
    cases hid

theorem mixedOnly_splitParts : MixedOnly splitPlanner.lookupContext splitParts := by
  have hcontext : ∀ i c, splitParts[i]? = some c →
      (lookUp splitPlanner.lookupContext [i] c).run.value.toOption.map Stream.context =
        some .mixed := by
    intro i c hc
    rcases i with _ | _ | i
    · obtain rfl := Option.some.inj hc
      decide +kernel
    · obtain rfl := Option.some.inj hc
      decide +kernel
    · cases hc
  have hmixed : ∀ s, HasPart splitPlanner.lookupContext [] splitParts s → s.context = .mixed := by
    rintro s ⟨i, c, hc, hs⟩
    have hi := hcontext i c hc
    rw [hs] at hi
    exact Option.some.inj hi
  refine ⟨fun s hs => by simp [hmixed s hs], ?_⟩
  have hflat : (Query.and splitParts).IsFlat := flatten_splitParts ▸ Query.isFlat_flatten _
  have hc : splitParts[0]? = some (.or [.equals "A" "1", .regex "B" (some ".*")]) := rfl
  rcases comes_lookUp returnsOrFails_splitPlanner hasIndex_splitPlanner.valid [0]
      (isFlat_of_getElem? hflat hc).1 fun c' hc' =>
        enumeratesShards_splitParts c' (.and (List.mem_of_getElem? hc) hc') with
    ⟨e, he⟩ | ⟨s, hs, -⟩
  · have hi := hcontext 0 _ hc
    rw [he] at hi
    cases hi
  · exact ⟨s, ⟨0, _, hc, hs⟩, hmixed s ⟨0, _, hc, hs⟩⟩

theorem plans_splitParts :
    (start splitPlanner.lookupContext (.and splitParts)).toOption.map (fun run =>
      (run.context, (PlanStream.lookup run).drain.1.map fun p => p.toOption.map (·.shard))) =
      some (.present, [some "20240102_0"]) := by
  decide +kernel

theorem covers_iff_splitParts : ∃ run,
    start splitPlanner.lookupContext (.and splitParts) = .ok run ∧ run.context = .present ∧
      (∀ id, (PlanStream.lookup run).Covers id ↔ splitPlanner.config.admits id = true ∧
        EachMixedHas splitPlanner.lookupContext splitParts fun _ p => p.Lists id) ∧
      ∀ docs truth, Records splitPlanner.config docs splitIndex →
        splitPlanner.config.settings.lookup.datatypes = [] →
        Agrees splitPlanner.config docs truth → ∀ id, splitPlanner.config.admits id = true →
          (EachMixedHas splitPlanner.lookupContext splitParts fun c _ =>
            c.IsPlannable splitPlanner.config ∧ ∃ d ∈ docs, d.shard = id ∧
              d.IsWithin .small .small ∧ d.Satisfies truth c) →
          (PlanStream.lookup run).Covers id := by
  have hstart := plans_splitParts
  cases hrun : start splitPlanner.lookupContext (.and splitParts) with
  | error e =>
    rw [hrun] at hstart
    cases hstart
  | ok run =>
    exact ⟨run, rfl, covers_iff_of_mixedOnly (x := splitPlanner.lookupContext)
      hasIndex_splitPlanner.valid returnsOrFails_splitPlanner
      (flatten_splitParts ▸ enumeratesShards_splitParts) flatten_splitParts mixedOnly_splitParts
      hrun⟩

/-- A document may be lost: it has no indexed hit for a half that its other field satisfies. -/
theorem not_covers_lostDocument :
    HasIndex splitPlanner splitIndex ∧
      Mirrors splitPlanner.config [foundDocument, lostDocument] splitIndex ∧
      (Query.and splitParts).flatten = .and splitParts ∧
      MixedOnly splitPlanner.lookupContext splitParts ∧
      lostDocument.IsWithin splitPlanner.config.first splitPlanner.config.last ∧
      lostDocument.Satisfies anyText (.and splitParts) ∧
      ∃ run, start splitPlanner.lookupContext (.and splitParts) = .ok run ∧
        run.context = .present ∧ ¬ (PlanStream.lookup run).Covers lostDocument.shard := by
  refine ⟨hasIndex_splitPlanner, mirrors_splitIndex, flatten_splitParts, mixedOnly_splitParts,
    ⟨by decide, by decide⟩, by rw [Document.Satisfies]; decide, ?_⟩
  have hstart := plans_splitParts
  cases hrun : start splitPlanner.lookupContext (.and splitParts) with
  | error e =>
    rw [hrun] at hstart
    cases hstart
  | ok run =>
    rw [hrun] at hstart
    obtain ⟨hcontext, hplans⟩ := Prod.mk.inj (Option.some.inj hstart)
    refine ⟨run, rfl, hcontext, fun ⟨p, hp, hshard⟩ => ?_⟩
    have hmem : some p.shard ∈ [some "20240102_0"] := hplans ▸ List.mem_map_of_mem hp
    rw [hshard] at hmem
    exact absurd hmem (by decide)

end PlanRun

end ShardedSearch
