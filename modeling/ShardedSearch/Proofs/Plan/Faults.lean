import ShardedSearch.Proofs.Calendar.Date
import ShardedSearch.Proofs.Lookup.Faults
import ShardedSearch.Proofs.Pattern.Shard
import ShardedSearch.Proofs.Plan.Run

/-! # Runs over faulty indexes

A run hands out plans up to the first error, then that error, then nothing more. In an index
with faults its plans are the first ones of the run over the mended index, and the error is
one of the faults.
-/

namespace ShardedSearch

open Merge (Leaf Stream)
open Merge.Stream (Settled)

namespace PlanRun

variable {r : PlanRun} {cs : List Candidate} {e? : Option PlanError}

/-- The first error that a run records: while its root stream is made, or while all candidates
are taken. -/
def recorded? (r : PlanRun) : Option PlanError :=
  r.raised.or (r.root.bind fun root => root.drain.first?)

def IsOver (r : PlanRun) : Prop := r.raised = none ∧ r.closed = true

/-- The candidates that a run still takes, and the error behind them. -/
inductive HandsOut : PlanRun → List Candidate → Option PlanError → Prop where
  | failed {r : PlanRun} {e : PlanError} :
      r.raised = some e → r.closed = false → HandsOut r [] (some e)
  | ended {r : PlanRun} : r.raised = none → r.root = none → HandsOut r [] none
  | given {r : PlanRun} {root : Stream} {cs : List Candidate} {e? : Option PlanError} {k : Nat} :
      r.raised = none → r.closed = false → r.root = some root → Settled k root →
      root.Gives cs e? → HandsOut r cs e?

theorem isOver_close (h : r.raised = none) : r.close.IsOver := by
  rw [close]
  split
  · next hc => exact ⟨h, hc⟩
  · exact ⟨h, rfl⟩

theorem next_of_isOver (h : r.IsOver) : r.next = (none, r) := by
  rw [next, nextWithin, h.1, h.2]
  rfl

theorem recorded?_of_handsOut (h : r.HandsOut cs e?) : r.recorded? = e? := by
  cases h with
  | failed hraised => rw [recorded?, hraised]; rfl
  | ended hraised hroot => rw [recorded?, hraised, hroot]; rfl
  | given hraised _ hroot hs hg =>
    rw [recorded?, hraised, hroot, Option.none_or, Option.bind_some]
    exact Stream.first?_drain_of_gives hs hg

theorem length_of_handsOut (h : r.HandsOut cs e?) : cs.length ≤ r.remaining := by
  cases h with
  | failed => exact Nat.zero_le _
  | ended => exact Nat.zero_le _
  | given _ _ hroot hs hg =>
    rw [remaining, hroot]
    exact Stream.length_of_gives hs hg

def advanced (r : PlanRun) (root : Stream) : PlanRun :=
  { r with root := some root.advance.value.2, raised := root.advance.first? }

theorem handsOut_advanced {root : Stream} {k : Nat} (hclosed : r.closed = false)
    (hs : Settled k root) (hg : root.Gives cs e?) :
    (root.advance.value.1 = none ∧ root.advance.first? = none ∧ cs = [] ∧ e? = none) ∨
    ∃ c cs', root.advance.value.1 = some c ∧ cs = c :: cs' ∧ (r.advanced root).HandsOut cs' e? := by
  cases hg with
  | ended hc he => exact .inl ⟨hc, he, rfl, rfl⟩
  | @broken _ c e hc he => exact .inr ⟨c, [], hc, rfl, .failed he hclosed⟩
  | @cons _ c cs _ hc he hg =>
    exact .inr ⟨c, cs, hc, rfl, .given he hclosed rfl (Stream.settled_advance hs) hg⟩

theorem nextWithin_of_root {root : Stream} {n : Nat} (hraised : r.raised = none)
    (hclosed : r.closed = false) (hroot : r.root = some root) :
    r.nextWithin (n + 1) = match root.advance.value.1 with
      | some c =>
        match ShardPlan.ofCandidate? r.config c with
        | some p => (some (.ok p), r.advanced root)
        | none => (r.advanced root).nextWithin n
      | none =>
        match root.advance.first? with
        | some e => (r.advanced root).fail e
        | none => (none, (r.advanced root).close) := by
  obtain ⟨config, root?, context, raised, closed⟩ := r
  obtain rfl : raised = none := hraised
  obtain rfl : closed = false := hclosed
  obtain rfl : root? = some root := hroot
  rfl

theorem nextWithin_of_handsOut {n : Nat} (h : r.HandsOut cs e?) (hn : cs.length < n) :
    (∃ p r' cs', r.nextWithin n = (some (.ok p), r') ∧ r'.HandsOut cs' e? ∧
      r'.config = r.config ∧ plansOf r.config cs = p :: plansOf r.config cs') ∨
    (plansOf r.config cs = [] ∧ ∃ r', r.nextWithin n = (e?.map .error, r') ∧ r'.IsOver) := by
  induction n generalizing r cs with
  | zero => cases hn
  | succ n ih =>
    cases h with
    | failed hraised =>
      rw [nextWithin, hraised]
      exact .inr ⟨rfl, _, rfl, isOver_close rfl⟩
    | ended hraised hroot =>
      rw [nextWithin, hraised, hroot]
      refine .inr ⟨rfl, ?_⟩
      cases hclosed : r.closed with
      | true => exact ⟨r, rfl, hraised, hclosed⟩
      | false => exact ⟨r.close, rfl, isOver_close hraised⟩
    | @given root _ _ k hraised hclosed hroot hs hg =>
      rw [nextWithin_of_root hraised hclosed hroot]
      rcases handsOut_advanced (r := r) hclosed hs hg with
        ⟨hc, he, rfl, rfl⟩ | ⟨c, cs, hc, rfl, hnext⟩
      · rw [hc, he]
        exact .inr ⟨rfl, _, rfl, isOver_close he⟩
      · rw [hc]
        dsimp only
        cases hp : ShardPlan.ofCandidate? r.config c with
        | some p =>
          refine .inl ⟨p, _, cs, rfl, hnext, rfl, ?_⟩
          rw [plansOf, List.filterMap_cons_some hp]
          rfl
        | none =>
          rw [plansOf, List.filterMap_cons_none hp]
          exact ih hnext (Nat.lt_of_succ_lt_succ hn)

/-- A run hands out the plans of its candidates and the error behind them, and is over. -/
theorem take_of_handsOut {n : Nat} (h : r.HandsOut cs e?)
    (hn : (plansOf r.config cs).length + e?.toList.length < n) :
    ∃ r', (PlanStream.lookup r).take n =
      ((plansOf r.config cs).map .ok ++ e?.toList.map .error, .lookup r') ∧ r'.IsOver := by
  induction n generalizing r cs with
  | zero => cases hn
  | succ n ih =>
    rw [PlanStream.take, PlanStream.next, next]
    rcases nextWithin_of_handsOut h (Nat.lt_succ_of_le (length_of_handsOut h)) with
      ⟨p, r', cs', hnext, hr, hc, hplans⟩ | ⟨hplans, r', hnext, hr⟩
    · rw [hplans] at hn ⊢
      rw [← hc, List.length_cons] at hn
      obtain ⟨r'', htail, hover⟩ := ih hr (by omega)
      refine ⟨r'', ?_, hover⟩
      simp only [hnext, htail, hc, List.map_cons, List.cons_append]
    · rw [hplans] at hn ⊢
      simp only [hnext]
      cases e? with
      | none => exact ⟨r', rfl, hr⟩
      | some e =>
        obtain ⟨n, rfl⟩ := Nat.exists_eq_succ_of_ne_zero (Nat.ne_zero_of_lt
          (Nat.lt_of_succ_lt_succ hn))
        refine ⟨r', ?_, hr⟩
        simp only [Option.map_some, PlanStream.take, PlanStream.next, next_of_isOver hr]
        rfl

theorem drain_of_handsOut (h : r.HandsOut cs e?) :
    ∃ r', (PlanStream.lookup r).drain =
      ((plansOf r.config cs).map .ok ++ r.recorded?.toList.map .error, .lookup r') ∧
      r'.IsOver := by
  rw [recorded?_of_handsOut h]
  refine take_of_handsOut h ?_
  have hplans := List.length_filterMap_le (ShardPlan.ofCandidate? r.config) cs
  have hcs := length_of_handsOut h
  have he : e?.toList.length ≤ 1 := by cases e? <;> simp
  change (cs.filterMap _).length + _ < r.remaining + 2
  omega

/-! ### Mended indexes -/

/-- Runs of which the first one goes along with the second one until an error is raised. -/
inductive Follows (P : PlanError → Prop) : PlanRun → PlanRun → Prop where
  | failed {r r' : PlanRun} {e : PlanError} :
      r.raised = some e → r.closed = false → P e → Follows P r r'
  | ended {r r' : PlanRun} : r.raised = none → r'.raised = none → r.root = none →
      r'.root = none → Follows P r r'
  | alike {r r' : PlanRun} {root root' : Stream} {k : Nat} : r.raised = none →
      r'.raised = none → r.closed = false → r'.closed = false → r.root = some root →
      r'.root = some root' → Stream.Alike (Leaf.CutOff P) k root root' → Follows P r r'

variable {P : PlanError → Prop} {r' : PlanRun} {cs' : List Candidate} {e?' : Option PlanError}

theorem gives_of_handsOut {root : Stream} (h : r.HandsOut cs e?) (hraised : r.raised = none)
    (hroot : r.root = some root) : root.Gives cs e? := by
  cases h with
  | failed he =>
    rw [hraised] at he
    cases he
  | ended _ hnone =>
    rw [hroot] at hnone
    cases hnone
  | given _ _ hsome _ hg =>
    rw [hroot] at hsome
    obtain rfl := Option.some.inj hsome
    exact hg

theorem eq_nil_of_handsOut (h : r.HandsOut cs e?) (hroot : r.root = none ∨ r.raised ≠ none) :
    cs = [] ∧ e? = r.raised := by
  cases h with
  | failed he => exact ⟨rfl, he.symm⟩
  | ended he => exact ⟨rfl, he.symm⟩
  | given hraised _ hsome =>
    rw [hraised, hsome] at hroot
    simp at hroot

theorem exists_handsOut (h : Follows P r r') : ∃ cs e?, r.HandsOut cs e? := by
  cases h with
  | failed hraised hclosed => exact ⟨[], _, .failed hraised hclosed⟩
  | ended hraised _ hroot => exact ⟨[], none, .ended hraised hroot⟩
  | @alike root root' k hraised _ hclosed _ hroot _ hk =>
    have hs := (Stream.settled_of_alike Leaf.leafSimilar_cutOff (Nat.le_refl k) hk).1
    obtain ⟨cs, e?, hg⟩ := Stream.exists_gives hs
    exact ⟨cs, e?, .given hraised hclosed hroot hs hg⟩

/-- Until an error is raised, both runs hand out the same. -/
theorem front_of_follows (h : Follows P r r') (hr : r.HandsOut cs e?)
    (hr' : r'.HandsOut cs' e?') :
    cs <+: cs' ∧ (∀ e ∈ e?, P e) ∧ (e? = none → cs = cs' ∧ e?' = none) := by
  cases h with
  | @failed e hraised _ hP =>
    obtain ⟨rfl, rfl⟩ := eq_nil_of_handsOut hr (.inr (by rw [hraised]; nofun))
    rw [hraised]
    exact ⟨List.nil_prefix, by simpa using hP, nofun⟩
  | ended hraised hraised' hroot hroot' =>
    obtain ⟨rfl, rfl⟩ := eq_nil_of_handsOut hr (.inl hroot)
    obtain ⟨rfl, rfl⟩ := eq_nil_of_handsOut hr' (.inl hroot')
    rw [hraised, hraised']
    exact ⟨List.nil_prefix, by simp, fun _ => ⟨rfl, rfl⟩⟩
  | alike hraised hraised' _ _ hroot hroot' hk =>
    exact Stream.gives_of_alike hk (gives_of_handsOut hr hraised hroot)
      (gives_of_handsOut hr' hraised' hroot')

open Lookup (Mends IsFault LostAlike parallel_lostAlike parallel_cutOff)

variable {x y : LookupContext} {t t' : Store.Table} {q : Query} {good : PlanRun}

theorem start_of_mends (h : Mends x y t t') (hr : start x q = .ok r) :
    ∃ good, start y q = .ok good := by
  obtain ⟨tree, htree, hroot⟩ := exists_of_bind_eq_ok hr
  obtain ⟨root, hroot, -⟩ := exists_of_bind_eq_ok hroot
  have hlike := (parallel_lostAlike h).rootOf tree
  change Lookup.ExceptLike _ (Lookup.rootOf x tree).run.value _ at hlike
  rw [hroot] at hlike
  cases hgood : (Lookup.rootOf y tree).run.value with
  | error e =>
    rw [hgood] at hlike
    cases hlike
  | ok root' =>
    rw [start, ← h.config, htree]
    simp only [bind, Except.bind, hgood]
    exact ⟨_, rfl⟩

/-- Both runs start alike, unless the first one meets a fault. -/
theorem follows_of_start (h : Mends x y t t') (hr : start x q = .ok r)
    (hgood : start y q = .ok good) : Follows (IsFault x) r good := by
  obtain ⟨root, hroot, rfl⟩ := eq_of_start hr
  obtain ⟨root', hroot', rfl⟩ := eq_of_start hgood
  rcases (parallel_cutOff h).rootOf q.flatten with ⟨e, he, hP⟩ | ⟨herr, herr', hlike⟩
  · exact .failed he rfl hP
  · rw [hroot, hroot'] at hlike
    obtain ⟨k, hk⟩ : ∃ k, Stream.Alike (Leaf.CutOff (IsFault x)) k root root' := by
      cases hlike with
      | ok hk => exact hk
    have hraised : (Lookup.rootOf x q.flatten).run.first? = none := by
      rw [Raising.first?, herr, List.head?_nil]
    have hraised' : (Lookup.rootOf y q.flatten).run.first? = none := by
      rw [Raising.first?, herr', List.head?_nil]
    rw [Stream.context_of_alike Leaf.leafSimilar_cutOff hk]
    split
    · exact .alike hraised hraised' rfl rfl rfl rfl hk
    · exact .ended hraised hraised' rfl rfl

/-- A run over an index with faults hands out plans of the mended index, the first fault that it
records, and then nothing more. Without a fault it hands out all of them. -/
theorem drain_of_mends (h : Mends x y t t') (hr : start x q = .ok r) :
    ∃ good plans front rest, start y q = .ok good ∧
      (PlanStream.lookup good).drain.1 = plans.map .ok ∧ front <+: plans ∧
      (PlanStream.lookup r).drain =
        (front.map .ok ++ r.recorded?.toList.map .error, rest) ∧
      rest.next = (none, rest) ∧ (r.recorded? = none → front = plans) ∧
      ∀ e ∈ r.recorded?, IsFault x e := by
  obtain ⟨good, hgood⟩ := start_of_mends h hr
  have hfollows := follows_of_start h hr hgood
  have hself := follows_of_start h.self hgood hgood
  obtain ⟨cs, e?, hcs⟩ := exists_handsOut hfollows
  obtain ⟨cs', e?', hcs'⟩ := exists_handsOut hself
  obtain ⟨hfront, hfault, hsame⟩ := front_of_follows hfollows hcs hcs'
  obtain ⟨-, hnever, -⟩ := front_of_follows hself hcs' hcs'
  obtain rfl : e?' = none := Option.eq_none_iff_forall_not_mem.mpr fun e he =>
    h.not_isFault e (hnever e he)
  obtain ⟨rest, hdrain, hover⟩ := drain_of_handsOut hcs
  obtain ⟨rest', hdrain', -⟩ := drain_of_handsOut hcs'
  have hconfig : r.config = good.config := by
    obtain ⟨root, -, rfl⟩ := eq_of_start hr
    obtain ⟨root', -, rfl⟩ := eq_of_start hgood
    exact h.config
  have hrecorded := recorded?_of_handsOut hcs
  refine ⟨good, plansOf r.config cs', plansOf r.config cs, .lookup rest, hgood, ?_,
    hfront.filterMap _, hdrain, ?_, ?_, ?_⟩
  · rw [hdrain', recorded?_of_handsOut hcs', hconfig]
    exact List.append_nil _
  · rw [PlanStream.next, next_of_isOver hover]
  · intro hnone
    rw [(hsame (hrecorded ▸ hnone)).1]
  · exact hrecorded ▸ hfault

def threeEntries (v : Wire.Bytes) : List Store.Entry :=
  [(Index.Layout.termKey "1" "A" "20240102_1" "log", [1, 0, 1, 1, 117]),
    (Index.Layout.termKey "1" "A" "20240102_2" "log", v),
    (Index.Layout.termKey "1" "A" "20240102_3" "log", [1, 0, 1, 1, 117])]

def threeShards (v : Wire.Bytes) : Store.Table := .ofList (threeEntries v)

def threeShardsContext (v : Wire.Bytes) (limit : Store.ReadLimit) : LookupContext where
  config := ⟨{ lookup := { batchSize := 1 } }, .empty, .small, .small,
    Calendar.Date.le_refl .small, .ofList ["A"], .empty, .empty, .shard⟩
  counts := .ofList []
  scannerAt _ := .ok (.ofTable "shardIndex" (threeShards v) limit)

/-- The second value cannot be read, and every scan fails with its fourth read. -/
theorem mends_threeShards :
    Mends (threeShardsContext [255] fun _ _ => some 3)
      (threeShardsContext [1, 0, 1, 1, 117] fun _ _ => none)
      (threeShards [255]) (threeShards [1, 0, 1, 1, 117]) where
  config := rfl
  counts := rfl
  table := by
    have hsound : Lookup.MendedValue [1, 0, 1, 1, 117] [1, 0, 1, 1, 117] :=
      ⟨⟨⟨1, false, ["u"]⟩, by decide +kernel⟩, fun _ => rfl⟩
    have hmended : Lookup.MendedValue [255] [1, 0, 1, 1, 117] := by
      refine ⟨hsound.1, fun ⟨l, hl⟩ => ?_⟩
      cases hl
    have hfaulty : (threeShards [255]).toList = threeEntries [255] := by decide +kernel
    have hwell : (threeShards [1, 0, 1, 1, 117]).toList = threeEntries [1, 0, 1, 1, 117] := by
      decide +kernel
    rw [hfaulty, hwell]
    exact .cons ⟨rfl, hsound⟩ (.cons ⟨rfl, hmended⟩ (.cons ⟨rfl, hsound⟩ .nil))
  scanner place := .inr ⟨"shardIndex", _, rfl, rfl⟩
  firstBatch place field range s hs := by
    obtain rfl := Except.ok.inj hs
    refine Lookup.Batches.exists_read fun l hl => ?_
    obtain rfl := Option.some.inj hl
    change 0 + max 1 1 ≤ 3
    decide

theorem drain_of_mends_threeShards :
    ∃ run good plans front rest,
      start (threeShardsContext [255] fun _ _ => some 3) (.equals "A" "1") = .ok run ∧
      start (threeShardsContext [1, 0, 1, 1, 117] fun _ _ => none) (.equals "A" "1") = .ok good ∧
      (PlanStream.lookup good).drain.1 = plans.map .ok ∧ front <+: plans ∧
      (PlanStream.lookup run).drain =
        (front.map .ok ++ run.recorded?.toList.map .error, rest) ∧
      rest.next = (none, rest) ∧ (run.recorded? = none → front = plans) ∧
      ∀ e ∈ run.recorded?, IsFault (threeShardsContext [255] fun _ _ => some 3) e := by
  have hstart : (start (threeShardsContext [255] fun _ _ => some 3)
      (.equals "A" "1")).toOption.isSome = true := by decide +kernel
  cases hrun : start (threeShardsContext [255] fun _ _ => some 3) (.equals "A" "1") with
  | error e =>
    rw [hrun] at hstart
    cases hstart
  | ok run =>
    obtain ⟨good, plans, front, rest, h⟩ := drain_of_mends mends_threeShards hrun
    exact ⟨run, good, plans, front, rest, rfl, h⟩

/-- The plan of the first shard comes before the error. -/
example : (start (threeShardsContext [255] fun _ _ => some 3) (.equals "A" "1")).toOption.map
    (fun run => (PlanStream.lookup run).drain.1.map fun p => p.toOption.map (·.shard)) =
      some [some "20240102_1", none] := by
  decide +kernel

end PlanRun

end ShardedSearch
