import ShardedSearch.Proofs.Merge.Reading

/-! # Streams that choose shards

Where no other stream has a position, the mixed streams of a conjunction choose its shards: it
lists those that each of them lists. A mixed disjunction lists the shards of its present
streams; what it defers could be anywhere, and lists none.
-/

namespace ShardedSearch.Merge

open Candidate

namespace Stream

variable {s t : Stream} {ts : List Stream} {rs : List Reading} {cs : List Candidate}
variable {id : ShardId} {q : Query} {n : Nat}

def Lists (s : Stream) (id : ShardId) : Prop := ∃ c ∈ s.drain.value.1, c.shard = id

theorem lists_iff (h : s.Emits cs) : s.Lists id ↔ (evidenceAt cs id).isSome = true := by
  obtain ⟨s', hs⟩ := drain_of_emits h
  rw [Lists, hs, isSome_evidenceAt_iff]
  rfl

/-- A stream with candidates of which none rules out any record. -/
def EmitsAnything (s : Stream) : Prop :=
  ∃ cs, s.Emits cs ∧ ∀ c ∈ cs, ∀ uid, c.evidence.found.admits uid

/-- A stream with a reading; a mixed one rules out no record. -/
def Readable (s : Stream) : Prop :=
  (∃ r, s.Realises r) ∧ (s.context = .mixed → s.EmitsAnything)

theorem exists_realises (h : ∀ t ∈ ts, t.Readable) : ∃ rs, List.Forall₂ Realises ts rs := by
  induction ts with
  | nil => exact ⟨[], .nil⟩
  | cons t ts ih =>
    obtain ⟨⟨r, hr⟩, -⟩ := h t List.mem_cons_self
    obtain ⟨rs, hrs⟩ := ih fun t' ht => h t' (List.mem_cons_of_mem t ht)
    exact ⟨r :: rs, .cons hr hrs⟩

theorem contexts_of_realises (h : List.Forall₂ Realises ts rs) :
    ts.map context = rs.map Reading.context := by
  induction h with
  | nil => rfl
  | cons hs _ ih => rw [List.map_cons, List.map_cons, ih, context_of_realises hs]

theorem context_ne_pending (h : List.Forall₂ Realises ts rs) : ∀ t ∈ ts, t.context ≠ .pending := by
  intro t ht hpending
  have hmem : t.context ∈ rs.map Reading.context :=
    contexts_of_realises h ▸ List.mem_map_of_mem ht
  obtain ⟨r, -, hr⟩ := List.mem_map.mp hmem
  rw [hpending] at hr
  cases r <;> cases hr

/-! ### Conjunctions -/

theorem exists_listings (h : ∀ t ∈ ts, t.Readable) (hn : heightOfAll ts ≤ n) :
    ∃ css, List.Forall₂ (EmitsWithin n) (ts.filter fun t => t.context = .mixed) css ∧
      (∀ cs ∈ css, ∀ c ∈ cs, ∀ uid, c.evidence.found.admits uid) ∧
      ∀ id, (∀ cs ∈ css, (evidenceAt cs id).isSome = true) ↔
        ∀ t ∈ ts, t.context = .mixed → t.Lists id := by
  induction ts with
  | nil => exact ⟨[], .nil, by simp, by simp⟩
  | cons t ts ih =>
    rw [heightOfAll] at hn
    obtain ⟨css, hcss, hadmit, hlists⟩ :=
      ih (fun t' ht => h t' (List.mem_cons_of_mem t ht)) (by omega)
    rw [List.filter_cons]
    by_cases hmixed : t.context = .mixed
    · obtain ⟨cs, hcs, hany⟩ := (h t List.mem_cons_self).2 hmixed
      rw [if_pos (decide_eq_true hmixed)]
      refine ⟨cs :: css, .cons (hcs.within (by omega)) hcss,
        List.forall_mem_cons.mpr ⟨hany, hadmit⟩, fun id => ?_⟩
      rw [List.forall_mem_cons, List.forall_mem_cons, hlists, lists_iff hcs]
      simp [hmixed]
    · rw [if_neg (by simpa using hmixed)]
      refine ⟨css, hcss, hadmit, fun id => ?_⟩
      rw [List.forall_mem_cons, hlists]
      simp [hmixed]

/-- Whether nothing but mixed streams could choose the shards of a conjunction, and some do. -/
structure Driven (ts : List Stream) : Prop where
  unpositioned : ∀ t ∈ ts, t.context ≠ .present ∧ t.context ≠ .absent
  some : ∃ t ∈ ts, t.context = .mixed

/-- A conjunction that mixed streams drive has for a shard what all of them have, if they all
list it. -/
theorem emits_of_driven {css : List (List Candidate)} (h : List.Forall₂ Realises ts rs)
    (hts : Driven ts) (hcss : List.Forall₂ (EmitsWithin (heightOfAll ts))
      (ts.filter fun t => t.context = .mixed) css) (q : Query) :
    ∃ j cs, Conjunction.ofStreams (opsFor ts) q ts = pure j ∧ j.context = .mixed ∧
      (conjunction j).Emits cs ∧ ∀ id, evidenceAt cs id =
        Evidence.conj? (css.map (evidenceAt · id)) [] (rs.filterMap Reading.delayed?) := by
  obtain ⟨hdeferred, hflat⟩ := deferred_of_realises (n := heightOfAll ts) h
  have hnone : (ts.any fun t => (opsWithin (heightOfAll ts)).context t = .absent) = false := by
    rw [opsWithin_context]
    exact List.any_eq_false.mpr fun t ht => by simpa using (hts.unpositioned t ht).2
  have hchildren : (ts.filter fun t => (opsWithin (heightOfAll ts)).context t = .present ||
      (opsWithin (heightOfAll ts)).context t = .pending) = [] := by
    rw [opsWithin_context, List.filter_eq_nil_iff]
    intro t ht
    simp [(hts.unpositioned t ht).1, context_ne_pending h t ht]
  have hne : (ts.filter fun t => t.context = .mixed) ≠ [] := by
    obtain ⟨t, ht, hmixed⟩ := hts.some
    exact List.ne_nil_of_mem (List.mem_filter.mpr ⟨ht, decide_eq_true hmixed⟩)
  obtain ⟨j, cs, hj, hemits, hat, -, hcontext⟩ := Conjunction.refill_of_emits
    (j := ⟨q, .mixed, _, [], _, none⟩) (emitting (heightOfAll ts)) (answering (heightOfAll ts))
    hcss .nil hne hflat
  refine ⟨j, cs, ?_, hcontext, .of_within (n := heightOfAll ts + 1) hemits, hat⟩
  rw [Conjunction.ofStreams, opsFor, hnone, if_neg Bool.false_ne_true]
  dsimp only
  rw [hchildren, hdeferred, opsWithin_context]
  have hempty : (ts.filter fun t => t.context = .mixed).isEmpty = false := by simpa using hne
  rw [hempty]
  exact hj

theorem conjunction_of_driven (h : ∀ t ∈ ts, t.Readable) (hts : Driven ts) (q : Query) :
    ∃ j, Conjunction.ofStreams (opsFor ts) q ts = pure j ∧ j.context = .mixed ∧
      (conjunction j).EmitsAnything ∧
      ∀ id, (conjunction j).Lists id ↔ ∀ t ∈ ts, t.context = .mixed → t.Lists id := by
  obtain ⟨rs, hrs⟩ := exists_realises h
  obtain ⟨css, hcss, hadmit, hlists⟩ := exists_listings h (Nat.le_refl _)
  obtain ⟨j, cs, hj, hcontext, hcs, hat⟩ := emits_of_driven hrs hts hcss q
  have hadmits : ∀ id uid, (Evidence.conj (css.filterMap (evidenceAt · id) ++
      ([] : List (ShardId → Evidence)).map (· id))
      (rs.filterMap Reading.delayed?)).found.admits uid := by
    refine fun id uid => Evidence.admits_conj fun e he => ?_
    rw [List.map_nil, List.append_nil] at he
    obtain ⟨cs', hcs', he⟩ := List.mem_filterMap.mp he
    have hlisting := (emitting _).isListing hcss cs' hcs'
    exact hadmit cs' hcs' _ ((evidenceAt_eq_some_iff hlisting.ascending).mp he) uid
  replace hat : ∀ id, evidenceAt cs id =
      Conjunction.evidenceOf (rs.filterMap Reading.delayed?) css [] id := hat
  refine ⟨j, hj, hcontext, ⟨cs, hcs, fun c hc uid => ?_⟩, fun id => ?_⟩
  · have he := (evidenceAt_eq_some_iff hcs.isListing.ascending).mpr hc
    rw [hat] at he
    obtain ⟨-, he⟩ := Conjunction.evidenceOf_eq_some he
    exact he ▸ hadmits c.shard uid
  · rw [lists_iff hcs, ← hlists, hat, Conjunction.evidenceOf_def]
    split
    · next hall =>
      have hempty := Matches.isEmpty_of_admits (hadmits id "")
      refine iff_of_true ?_ hall
      rw [Option.filter, if_pos (by rw [Evidence.isEmpty, hempty]; rfl)]
      rfl
    · next hnot => exact iff_of_false (by simp) hnot

theorem driven_of_all (h : List.Forall₂ Realises ts rs)
    (hr : (Reading.all q rs).context = .mixed) : Driven ts := by
  have hcontexts := contexts_of_realises h
  have hreading : ∀ t ∈ ts, ∃ r ∈ rs, r.context = t.context := fun t ht =>
    List.mem_map.mp (hcontexts ▸ List.mem_map_of_mem ht)
  unfold Reading.all at hr
  split at hr
  · cases hr
  · next habsent =>
    split at hr
    · cases hr
    · next g gs hevidence hanswers =>
      refine ⟨fun t ht => ?_, ?_⟩
      · obtain ⟨r, hmem, hcontext⟩ := hreading t ht
        refine ⟨fun hpresent => ?_, fun h => habsent ⟨r, hmem, hcontext.trans h⟩⟩
        cases r with
        | present f =>
          have hf := List.mem_filterMap.mpr ⟨_, hmem, (rfl : Reading.evidence? (.present f) = f)⟩
          rw [hevidence] at hf
          cases hf
        | _ => cases hcontext.trans hpresent
      · have hg : g ∈ rs.filterMap Reading.answers? := hanswers ▸ List.mem_cons_self
        obtain ⟨r, hmem, hsome⟩ := List.mem_filterMap.mp hg
        obtain ⟨t, ht, hcontext⟩ :=
          List.mem_map.mp (hcontexts.symm ▸ List.mem_map_of_mem (f := Reading.context) hmem)
        refine ⟨t, ht, hcontext.trans ?_⟩
        cases r with
        | mixed => rfl
        | _ => cases hsome
    · cases hr
    · cases hr

theorem readable_conjunction (h : ∀ t ∈ ts, t.Readable) (hq : q.IsFlat) :
    ∃ j, Conjunction.ofStreams (opsFor ts) q ts = pure j ∧ (conjunction j).Readable := by
  obtain ⟨rs, hrs⟩ := exists_realises h
  obtain ⟨j, hj, hr⟩ := conjunction_of_realises hrs hq
  refine ⟨j, hj, ⟨_, hr⟩, fun hmixed => ?_⟩
  rw [context_of_realises hr] at hmixed
  obtain ⟨j', hj', -, hany, -⟩ := conjunction_of_driven h (driven_of_all hrs hmixed) q
  obtain rfl : j = j' := congrArg Raising.value (hj.symm.trans hj')
  exact hany

/-! ### Disjunctions -/

theorem exists_evidence_iff (h : List.Forall₂ Realises ts rs) (id : ShardId) :
    (∃ f ∈ rs.filterMap Reading.evidence?, (f id).isSome = true) ↔
      ∃ t ∈ ts, t.context = .present ∧ t.Lists id := by
  induction h with
  | nil => simp
  | @cons t r ts rs ht _ ih =>
    cases r with
    | present f =>
      obtain ⟨hcontext, cs, hcs, hat⟩ := ht
      rw [List.exists_mem_cons_iff, ← ih, lists_iff hcs, hat]
      simp [hcontext, Reading.evidence?]
    | _ =>
      have hcontext := context_of_realises ht
      rw [List.exists_mem_cons_iff, ← ih]
      simp [hcontext, Reading.context, Reading.evidence?]

theorem emits_of_disjunction (h : List.Forall₂ Realises ts rs) (q : Query) :
    ∃ d cs, Disjunction.ofStreams (opsFor ts) q ts = pure d ∧ (disjunction d).Emits cs ∧
      (d.context = .mixed → rs.filterMap Reading.deferred? ≠ []) ∧
      ∀ id, evidenceAt cs id = Evidence.disj? ((rs.filterMap Reading.evidence?).map (· id))
        (rs.filterMap Reading.deferred?) := by
  obtain ⟨children, css, hsort, hcss, hat, hflat⟩ := sort_of_realises h (Nat.le_refl _)
  obtain ⟨d, cs, hrefill, hemits, hcs, -, -, hcontext⟩ := Disjunction.refill_of_emits
    (d := ⟨q, Disjunction.contextOf children (rs.filterMap Reading.deferred?), children,
      rs.filterMap Reading.deferred?, none⟩) (emitting _) hcss hflat
  refine ⟨d, cs, ?_, .of_within (n := heightOfAll ts + 1) hemits, fun hmixed hnil => ?_,
    fun id => ?_⟩
  · rw [Disjunction.ofStreams, opsFor, hsort]
    exact hrefill
  · dsimp only at hcontext
    rw [hcontext, hnil, Disjunction.contextOf] at hmixed
    cases hchildren : children.isEmpty <;> rw [hchildren] at hmixed <;> cases hmixed
  · rw [hcs, Disjunction.evidenceOf, hat]

theorem readable_disjunction (h : ∀ t ∈ ts, t.Readable) (hq : q.IsFlat) :
    ∃ d, Disjunction.ofStreams (opsFor ts) q ts = pure d ∧
      (d.context ≠ .delayed → (disjunction d).Readable) ∧
      ∀ id, (disjunction d).Lists id ↔ ∃ t ∈ ts, t.context = .present ∧ t.Lists id := by
  obtain ⟨rs, hrs⟩ := exists_realises h
  obtain ⟨d', hd', -, hr⟩ := disjunction_of_realises hrs hq
  obtain ⟨d, cs, hd, hlisting, hdeferred, hcs⟩ := emits_of_disjunction hrs q
  obtain rfl : d = d' := congrArg Raising.value (hd.symm.trans hd')
  refine ⟨d, hd, fun hnot => ⟨⟨_, hr hnot⟩, fun hmixed => ⟨cs, hlisting, fun c hc uid => ?_⟩⟩,
    fun id => ?_⟩
  · have he := (evidenceAt_eq_some_iff hlisting.isListing.ascending).mpr hc
    rw [hcs] at he
    rw [Evidence.disj?_eq_some he]
    exact Evidence.admits_disj (.inr (hdeferred hmixed))
  · rw [lists_iff hlisting, hcs, ← exists_evidence_iff hrs, Option.isSome_iff_ne_none, ne_eq,
      Evidence.disj?_eq_none_iff, List.forall_mem_map]
    push Not
    simp only [Option.isSome_iff_ne_none, ne_eq]

end Stream

end ShardedSearch.Merge
