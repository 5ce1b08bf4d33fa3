import ShardedSearch.Proofs.Lookup.Pointwise
import ShardedSearch.Proofs.Lookup.Soundness
import ShardedSearch.Proofs.Plan.Basic
import ShardedSearch.Proofs.Plan.Finding
import ShardedSearch.Proofs.Plan.Run

/-! # Soundness of runs over the shard index

A run whose root stream is present plans the shard of every document that satisfies the
query, and its plans mean the query in their shards. If the root stream is absent, no
document satisfies the query.
-/

namespace ShardedSearch

open Lookup
open Merge (Reading Stream World)
open Store (Table)

theorem PlanConfig.admits_shard {c : PlanConfig}
    (h : Pattern.ofText? ({} : PlanSettings).idPattern = some c.idPattern) (d : Document) :
    c.admits d.shard = true := by
  rw [Pattern.ofText?_default, Option.some.injEq] at h
  rw [admits, ← h]
  exact Pattern.shard_occursIn_ofDay d.year_mem d.number

namespace PlanRun

variable {x : LookupContext} {t : Table} {docs : List Document}
variable {truth : Document → Query → Bool} {q : Query} {run : PlanRun} {d : Document}
variable {cs : List Candidate} {w : World}

theorem eq_of_yields {lost : Prop} {m : Stream.Making Stream} {r : Reading} {root : Stream}
    (h : Stream.Yields lost m r) (hm : m.run.value = .ok root) :
    m = pure root ∧ root.Realises r := by
  rcases h with ⟨-, f, rfl⟩ | ⟨s, rfl, hs⟩
  · cases hm
  · obtain rfl : s = root := Except.ok.inj hm
    exact ⟨rfl, hs⟩

theorem holds_flatten_iff {c : PlanConfig} :
    (worldOf c docs truth).holds q.flatten d = true ↔ d.Satisfies truth q := by
  rw [World.holds, Query.holds_flatten]
  rfl

/-- Plans of a listing that keeps documents: those of satisfying documents have one, and each
plan means the query in its shard. -/
theorem plans_of_keeps {c : PlanConfig} (hasc : Candidate.Ascending cs)
    (h : w.Keeps q (Candidate.evidenceAt cs ·)) :
    (∀ d, w.Has d → w.holds q d = true → c.admits d.shard = true →
      ∃ p ∈ plansOf c cs, p.shard = d.shard) ∧
    ∀ p ∈ plansOf c cs, ∀ d, w.docs d → d.shard = p.shard →
      w.holds p.query d = w.holds q d := by
  constructor
  · intro d hd hq hadmits
    obtain ⟨e, he, -⟩ := h.complete d hd hq
    obtain ⟨p, hp, hshard⟩ := ShardPlan.make?_eq_some_of_admits (q := e.query) hadmits
    exact ⟨p, List.mem_filterMap.mpr ⟨_, (Candidate.evidenceAt_eq_some_iff hasc).mp he, hp⟩, hshard⟩
  · intro p hp d hdoc hshard
    obtain ⟨k, hk, hkp⟩ := List.mem_filterMap.mp hp
    have hat : Candidate.evidenceAt cs d.shard = some k.evidence := by
      rw [hshard, ShardPlan.shard_of_make? hkp]
      exact (Candidate.evidenceAt_eq_some_iff hasc).mpr hk
    rw [World.holds, ShardPlan.holds_of_make? hkp]
    exact h.faithful d ⟨hdoc, h.known _ _ hat⟩ _ hat

theorem finds_of_keeps {c : PlanConfig} (hdrain : (PlanStream.lookup run).drain.1 =
      (plansOf c cs).map .ok) (hasc : Candidate.Ascending cs)
    (hkeeps : (worldOf c docs truth).Keeps q.flatten (Candidate.evidenceAt cs ·))
    (hpattern : Pattern.ofText? ({} : PlanSettings).idPattern = some c.idPattern)
    (hdays : ∀ d : Document, d.IsWithin c.first c.last →
      Index.Layout.InDays c.firstDay c.lastDay d.shard) :
    (PlanStream.lookup run).Finds c docs truth q := by
  obtain ⟨hcomplete, hfaithful⟩ := plans_of_keeps (c := c) hasc hkeeps
  have hmem : ∀ p, .ok p ∈ (PlanStream.lookup run).drain.1 ↔ p ∈ plansOf c cs := by
    intro p
    rw [hdrain, PlanStream.ok_mem_map_ok_iff]
  constructor
  · intro d hd hwithin hsat
    obtain ⟨p, hp, hshard⟩ := hcomplete d ⟨hd, hdays d hwithin⟩ (holds_flatten_iff.mpr hsat)
      (PlanConfig.admits_shard hpattern d)
    exact ⟨p, (hmem p).mpr hp, hshard⟩
  · intro p hp d hd hshard
    have hiff : (worldOf c docs truth).holds q.flatten d = true ↔ d.Satisfies truth q :=
      holds_flatten_iff
    rw [← hfaithful p ((hmem p).mp hp) d hd hshard] at hiff
    exact hiff

/-- What a run tells about documents, by the context that its root stream itself has. -/
theorem sound_of_start (hindex : Records x.config docs t)
    (hscan : ∀ place field value, Sees x place (rangeOf x.config field value) t ∨
      FailsFirst x place field value)
    (htypes : x.config.settings.lookup.datatypes = [])
    (hpattern : Pattern.ofText? ({} : PlanSettings).idPattern = some x.config.idPattern)
    (htruth : Agrees x.config docs truth) (hq : q.IsPlannable x.config)
    (hrun : start x q = .ok run) :
    ∃ root, (rootOf x q.flatten).run.value = .ok root ∧
      (root.context = .present → (PlanStream.lookup run).Finds x.config docs truth q) ∧
      (root.context = .absent → x.config.last.year ≤ 9999 →
        ∀ d ∈ docs, d.IsWithin x.config.first x.config.last → ¬ d.Satisfies truth q) := by
  obtain ⟨r, hsound, hyields⟩ := exists_isSound_rootOf hindex hscan htypes htruth hq
  obtain ⟨root, hvalue, -⟩ := eq_of_start hrun
  obtain ⟨hroot, hr⟩ := eq_of_yields hyields hvalue
  refine ⟨root, hvalue, fun hctx => ?_, fun hctx hlast d hd hwithin hsat => ?_⟩
  · cases r with
    | present f =>
      obtain ⟨hlive, hkeeps⟩ := hsound
      obtain ⟨-, cs, hcs, hat⟩ := hr
      obtain ⟨hemits, -, hconfig⟩ :=
        emits_of_start hrun hroot (by rw [hctx]; rfl) hcs
      obtain rfl := funext hat
      refine finds_of_keeps ?_ hcs.isListing.ascending hkeeps hpattern fun d hwithin => ?_
      · rw [drain_of_emits hemits, hconfig]
      · exact Index.Layout.inDays_ofDay_of_exists d.year_mem hwithin.1 hwithin.2 hlive
    | _ =>
      rw [Stream.context_of_realises hr] at hctx
      cases hctx
  · cases r with
    | absent =>
      have hdays := Index.Layout.inDays_ofDay_of_le (n := d.number) d.year_mem hwithin.1 hwithin.2
        hlast
      have := hsound d ⟨hd, hdays⟩
      rw [holds_flatten_iff.mpr hsat] at this
      cases this
    | _ =>
      rw [Stream.context_of_realises hr] at hctx
      cases hctx

/-! ### A document of the small index -/

def smallDocument : Document := ⟨.small, by decide, 0, "u", [("A", "1")]⟩

def smallQuery : Query := .and [.equals "A" "1", .or [.not (.regex "B" none), .equals "A" "2"]]

theorem records_smallDocument :
    Records (smallPlanner 2).config [smallDocument] smallIndex where
  valid := (hasIndex_smallPlanner 2).valid
  recorded := by
    intro d hd p hp _
    obtain rfl := List.mem_singleton.mp hd
    obtain rfl := List.mem_singleton.mp hp
    exact ⟨"log", [1, 0, 1, 1, 117], .exact ["u"], by decide, by decide, .inr (by decide)⟩

theorem isPlannable_smallQuery : smallQuery.IsPlannable (smallPlanner 2).config :=
  have heq : ∀ value, (Query.equals "A" value).IsPlannable (smallPlanner 2).config := fun _ =>
    ⟨by decide, by decide⟩
  ⟨List.cons_ne_nil _ _, heq _, ⟨List.cons_ne_nil _ _, trivial, heq _, trivial⟩, trivial⟩

theorem agrees_shows (c : PlanConfig) (docs : List Document) : Agrees c docs Document.shows :=
  fun _ _ _ _ _ => rfl

theorem sound_of_small_start :
    ∃ run root, start (smallPlanner 2).lookupContext smallQuery = .ok run ∧
      (rootOf (smallPlanner 2).lookupContext smallQuery.flatten).run.value = .ok root ∧
      (root.context = .present → (PlanStream.lookup run).Finds (smallPlanner 2).config
        [smallDocument] Document.shows smallQuery) ∧
      (root.context = .absent → Calendar.Date.small.year ≤ 9999 →
        ∀ d ∈ [smallDocument], d.IsWithin .small .small →
          ¬ d.Satisfies Document.shows smallQuery) := by
  have hstart : (start (smallPlanner 2).lookupContext smallQuery).toOption.isSome = true := by
    decide +kernel
  cases hrun : start (smallPlanner 2).lookupContext smallQuery with
  | error e =>
    rw [hrun] at hstart
    cases hstart
  | ok run =>
    obtain ⟨root, hroot⟩ := sound_of_start (x := (smallPlanner 2).lookupContext)
      records_smallDocument
      (fun place _ _ => .inl (sees_of_hasIndex (hasIndex_smallPlanner 2) place _)) rfl
      Pattern.ofText?_default (agrees_shows _ _) isPlannable_smallQuery hrun
    exact ⟨run, root, rfl, hroot⟩

end PlanRun

end ShardedSearch
