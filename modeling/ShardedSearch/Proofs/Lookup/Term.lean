import ShardedSearch.Lookup.Term
import ShardedSearch.Proofs.Index.Layout
import ShardedSearch.Proofs.Merge.Emission

/-! # What term look-ups list

Entries in the order of their shards fall into one group for each shard. If all values can
be read, a term lists every shard with an entry whose merged records are not known to be
none.
-/

namespace ShardedSearch.Lookup

open Wire (Bytes WireError)
open Index (UidList)
open Index.Layout (shardOf)
open Merge (Source)
open Store (Entry)
open Candidate

variable {es : List Entry} {e : Entry} {id : ShardId} {vs : List Bytes} {q : Query}

def valuesAt (es : List Entry) (id : ShardId) : List Bytes :=
  (es.filter (shardOf ·.1 = id)).map (·.2)

abbrev ByShard (es : List Entry) : Prop := es.Pairwise fun a b => ¬ shardOf b.1 < shardOf a.1

theorem byShard_of_ascending {value field : String} (hes : es.Pairwise (·.1 < ·.1))
    (hterm : ∀ e ∈ es, e.1.row = value ∧ e.1.family = field) : ByShard es := by
  refine hes.imp_of_mem fun ha hb hlt => ?_
  obtain ⟨har, haf⟩ := hterm _ ha
  obtain ⟨hbr, hbf⟩ := hterm _ hb
  exact Index.Layout.not_shardOf_lt hlt (har.trans hbr.symm) (haf.trans hbf.symm)

theorem valuesAt_cons :
    valuesAt (e :: es) id = if shardOf e.1 = id then e.2 :: valuesAt es id else valuesAt es id := by
  rw [valuesAt, List.filter_cons]
  by_cases h : shardOf e.1 = id <;> simp [h, valuesAt]

theorem valuesAt_eq_nil_iff : valuesAt es id = [] ↔ ∀ e ∈ es, shardOf e.1 ≠ id := by
  simp [valuesAt]

theorem groups_cons :
    groups (e :: es) =
      match groups es with
      | g :: gs =>
        if shardOf e.1 = g.1 then (shardOf e.1, e.2 :: g.2) :: gs
        else (shardOf e.1, [e.2]) :: g :: gs
      | [] => [(shardOf e.1, [e.2])] := rfl

theorem exists_shardOf_of_find?_groups
    (hf : ∀ id, (groups es).find? (·.1 = id) =
      if valuesAt es id = [] then none else some (id, valuesAt es id))
    {g : ShardId × List Bytes} (hg : g ∈ groups es) : ∃ e ∈ es, shardOf e.1 = g.1 := by
  have h := hf g.1
  split at h
  · have := List.find?_eq_none.mp h g hg
    simp at this
  · next hne =>
    rw [valuesAt_eq_nil_iff] at hne
    simpa using hne

theorem find?_join {g : ShardId × List Bytes} {gs : List (ShardId × List Bytes)}
    (hfind : (g :: gs).find? (·.1 = id) =
      if valuesAt es id = [] then none else some (id, valuesAt es id))
    (heq : shardOf e.1 = g.1) :
    ((shardOf e.1, e.2 :: g.2) :: gs).find? (·.1 = id) =
      if valuesAt (e :: es) id = [] then none else some (id, valuesAt (e :: es) id) := by
  by_cases hid : g.1 = id
  · have hne : valuesAt es id ≠ [] := fun hnil => by simp [hid, hnil] at hfind
    rw [if_neg hne, List.find?_cons_of_pos (by simpa using hid)] at hfind
    obtain rfl := Option.some.inj hfind
    simp [valuesAt_cons, heq]
  · simpa [valuesAt_cons, heq, hid] using hfind

theorem find?_new {gs : List (ShardId × List Bytes)}
    (hfind : gs.find? (·.1 = id) =
      if valuesAt es id = [] then none else some (id, valuesAt es id))
    (hall : ∀ g ∈ gs, shardOf e.1 < g.1) :
    ((shardOf e.1, [e.2]) :: gs).find? (·.1 = id) =
      if valuesAt (e :: es) id = [] then none else some (id, valuesAt (e :: es) id) := by
  by_cases hid : shardOf e.1 = id
  · have hnone : gs.find? (·.1 = id) = none := by
      apply List.find?_eq_none.mpr
      intro b hb
      simpa [← hid] using (KeyOrder.ne_of_lt (hall b hb)).symm
    have hnil : valuesAt es id = [] := by
      rw [hfind] at hnone
      simpa using hnone
    simp [valuesAt_cons, hid, hnil]
  · rw [List.find?_cons, valuesAt_cons, if_neg hid]
    simpa [hid] using hfind

/-- There is one group for each shard with an entry, in the order of the shards. -/
theorem groups_spec (h : ByShard es) :
    (groups es).Pairwise (·.1 < ·.1) ∧
      ∀ id, (groups es).find? (·.1 = id) =
        if valuesAt es id = [] then none else some (id, valuesAt es id) := by
  induction es with
  | nil => exact ⟨.nil, fun id => rfl⟩
  | cons e es ih =>
    obtain ⟨he, hes⟩ := List.pairwise_cons.mp h
    obtain ⟨hasc, hfind⟩ := ih hes
    have hle : ∀ g ∈ groups es, ¬ g.1 < shardOf e.1 := by
      intro g hg
      obtain ⟨b, hb, hs⟩ := exists_shardOf_of_find?_groups hfind hg
      exact hs ▸ he b hb
    rw [groups_cons]
    cases hg : groups es with
    | nil =>
      rw [hg] at hfind
      exact ⟨List.pairwise_singleton .., fun id => find?_new (hfind id) (by simp)⟩
    | cons g gs =>
      rw [hg] at hasc hfind hle
      obtain ⟨hgs, hgs'⟩ := List.pairwise_cons.mp hasc
      by_cases heq : shardOf e.1 = g.1
      · simp only [if_pos heq]
        exact ⟨List.pairwise_cons.mpr ⟨heq ▸ hgs, hgs'⟩, fun id => find?_join (hfind id) heq⟩
      · have hlt := KeyOrder.lt_of_not_lt (hle g List.mem_cons_self) fun h => heq h.symm
        simp only [if_neg heq]
        have hall : ∀ b ∈ g :: gs, shardOf e.1 < b.1 := by
          intro b hb
          rcases List.mem_cons.mp hb with rfl | hb
          · exact hlt
          · exact KeyOrder.trans hlt (hgs b hb)
        exact ⟨List.pairwise_cons.mpr ⟨hall, hasc⟩, fun id => find?_new (hfind id) hall⟩

theorem mem_groups_iff (h : ByShard es) :
    (id, vs) ∈ groups es ↔ vs = valuesAt es id ∧ vs ≠ [] := by
  obtain ⟨hasc, hfind⟩ := groups_spec h
  have := find?_eq_some_iff_of_ascending (a := (id, vs)) (k := id) hasc
  rw [← and_iff_left (a := (id, vs) ∈ groups es) (b := id = id) rfl, ← this, hfind]
  split
  · next hnil =>
    constructor
    · simp
    · rintro ⟨rfl, hne⟩
      exact absurd hnil hne
  · next hne =>
    constructor
    · intro h
      obtain ⟨-, rfl⟩ := Prod.mk.inj (Option.some.inj h)
      exact ⟨rfl, hne⟩
    · rintro ⟨rfl, -⟩
      rfl

/-! ### Evidence of a term -/

def IsUidList (v : Bytes) : Prop := ∃ l : UidList, Wire.ofBytes v = .ok l

def uidLists (vs : List Bytes) : List UidList :=
  vs.filterMap fun v => (Wire.ofBytes v : Except WireError UidList).toOption

def listsAt (es : List Entry) (id : ShardId) : List UidList := uidLists (valuesAt es id)

def mergedEvidence (q : Query) (l : UidList) (ls : List UidList) : Evidence :=
  ls.foldl (fun e l => e.merge (.ofUids q l)) (.ofUids q l)

/-- What the uid lists of a shard tell; nothing if there is none or no record is left. -/
def termEvidence? (q : Query) : List UidList → Option Evidence
  | [] => none
  | l :: ls => (some (mergedEvidence q l ls)).filter (!·.isEmpty)

theorem exists_entry_of_termEvidence? {ev : Evidence}
    (h : termEvidence? q (listsAt es id) = some ev) : ∃ e ∈ es, shardOf e.1 = id := by
  have hne : valuesAt es id ≠ [] := by
    intro hnil
    rw [listsAt, hnil] at h
    cases h
  rw [ne_eq, valuesAt_eq_nil_iff] at hne
  push Not at hne
  exact hne

theorem query_merge (hq : q.disjuncts = [q]) {a b : Evidence} (ha : a.query = q)
    (hb : b.query = q) : (a.merge b).query = q := by
  have hf : ([a, b].map Evidence.query ++ []).flatMap Query.disjuncts = [q, q] := by
    simp [ha, hb, hq]
  rw [Evidence.merge, Evidence.disj, Evidence.combine, hf]
  simp [Evidence.distinct, Query.join]

theorem query_mergedEvidence (hq : q.disjuncts = [q]) (l : UidList) (ls : List UidList) :
    (mergedEvidence q l ls).query = q := by
  have h : ∀ ev : Evidence, ev.query = q →
      (ls.foldl (fun e l => e.merge (.ofUids q l)) ev).query = q := by
    induction ls with
    | nil => exact fun _ h => h
    | cons l ls ih => exact fun ev h => ih _ (query_merge hq h rfl)
  exact h _ rfl

theorem query_of_termEvidence? (hq : q.disjuncts = [q]) {ls : List UidList} {ev : Evidence}
    (h : termEvidence? q ls = some ev) : ev.query = q := by
  cases ls with
  | nil => simp [termEvidence?] at h
  | cons l ls =>
    rw [termEvidence?, Option.filter_eq_some_iff] at h
    obtain ⟨rfl⟩ := h.1
    exact query_mergedEvidence hq l ls

/-- Whether a record may be one of a uid list. -/
def Lists (l : UidList) (uid : String) : Prop := l.ignore = true ∨ uid ∈ l.uids

theorem admits_ofUids {l : UidList} {uid : String} (h : Lists l uid) :
    (Evidence.ofUids q l).found.admits uid := by
  rw [Evidence.ofUids]
  split
  · trivial
  · next hi => exact SortedSet.mem_ofList.mpr (h.resolve_left hi)

theorem admits_mergedEvidence {l : UidList} {ls : List UidList} {uid : String}
    (h : ∃ k ∈ l :: ls, Lists k uid) : (mergedEvidence q l ls).found.admits uid := by
  have hkeep : ∀ (ls : List UidList) (ev : Evidence), ev.found.admits uid ∨
      (∃ k ∈ ls, Lists k uid) →
      (ls.foldl (fun e l => e.merge (.ofUids q l)) ev).found.admits uid := by
    intro ls
    induction ls with
    | nil => exact fun ev h => h.resolve_right (by simp)
    | cons l ls ih =>
      intro ev h
      have hmerge : ev.found.admits uid ∨ Lists l uid →
          (ev.merge (.ofUids q l)).found.admits uid := by
        rintro (h | h)
        · exact Evidence.admits_disj (.inl ⟨ev, by simp, h⟩)
        · have hm : Evidence.ofUids q l ∈ [ev, .ofUids q l] := by simp
          exact Evidence.admits_disj (.inl ⟨_, hm, admits_ofUids h⟩)
      rcases h with h | ⟨k, hk, h⟩
      · exact ih _ (.inl (hmerge (.inl h)))
      · rcases List.mem_cons.mp hk with rfl | hk
        · exact ih _ (.inl (hmerge (.inr h)))
        · exact ih _ (.inr ⟨k, hk, h⟩)
  obtain ⟨k, hk, h⟩ := h
  rcases List.mem_cons.mp hk with rfl | hk
  · exact hkeep ls _ (.inl (admits_ofUids h))
  · exact hkeep ls _ (.inr ⟨k, hk, h⟩)

theorem termEvidence?_of_lists {ls : List UidList} {uid : String} (h : ∃ l ∈ ls, Lists l uid) :
    ∃ ev, termEvidence? q ls = some ev ∧ ev.found.admits uid := by
  cases ls with
  | nil => simp at h
  | cons l ls =>
    have ha := admits_mergedEvidence (q := q) h
    refine ⟨_, ?_, ha⟩
    have he : (mergedEvidence q l ls).isEmpty = false := Matches.isEmpty_of_admits ha
    rw [termEvidence?, Option.filter, he]
    rfl

def termCandidates (q : Query) (es : List Entry) : List Candidate :=
  (groups es).filterMap fun g => (termEvidence? q (uidLists g.2)).map (Candidate.mk g.1)

theorem uidLists_cons {v : Bytes} {l : UidList} (h : Wire.ofBytes v = .ok l) :
    uidLists (v :: vs) = l :: uidLists vs := by
  rw [uidLists, List.filterMap_cons, h]
  rfl

theorem mergeValues_eq (h : ∀ v ∈ vs, IsUidList v) (ev : Evidence) :
    mergeValues q ev vs = .ok ((uidLists vs).foldl (fun e l => e.merge (.ofUids q l)) ev) := by
  induction vs generalizing ev with
  | nil => rfl
  | cons v vs ih =>
    obtain ⟨l, hl⟩ := h v List.mem_cons_self
    rw [mergeValues, Evidence.ofValue, hl, uidLists_cons hl]
    exact ih (fun w hw => h w (List.mem_cons_of_mem v hw)) _

theorem groupEvidence_eq (h : ∀ v ∈ vs, IsUidList v) (hne : vs ≠ []) :
    ∃ ev, groupEvidence q vs = .ok ev ∧
      termEvidence? q (uidLists vs) = if ev.isEmpty then none else some ev := by
  cases vs with
  | nil => exact absurd rfl hne
  | cons v vs =>
    obtain ⟨l, hl⟩ := h v List.mem_cons_self
    refine ⟨mergedEvidence q l (uidLists vs), ?_, ?_⟩
    · rw [groupEvidence, Evidence.ofValue, hl]
      exact mergeValues_eq (fun w hw => h w (List.mem_cons_of_mem v hw)) _
    · rw [uidLists_cons hl, termEvidence?, Option.filter]
      cases (mergedEvidence q l (uidLists vs)).isEmpty <;> rfl

theorem forall_isUidList_of_mem_groups (h : ByShard es) (hv : ∀ e ∈ es, IsUidList e.2)
    {g : ShardId × List Bytes} (hg : g ∈ groups es) : g.2 ≠ [] ∧ ∀ v ∈ g.2, IsUidList v := by
  obtain ⟨hvs, hne⟩ := (mem_groups_iff h).mp hg
  refine ⟨hne, fun v hm => ?_⟩
  rw [hvs, valuesAt] at hm
  obtain ⟨e, he, rfl⟩ := List.mem_map.mp hm
  exact hv e (List.mem_filter.mp he).1

theorem termSource_eq (h : ByShard es) (hv : ∀ e ∈ es, IsUidList e.2) :
    termSource q none (groups es) = .ofList (termCandidates q es) := by
  have hgs := fun g hg => forall_isUidList_of_mem_groups (g := g) h hv hg
  rw [termCandidates]
  generalize groups es = gs at hgs
  induction gs with
  | nil => rfl
  | cons g gs ih =>
    obtain ⟨hne, hlists⟩ := hgs g List.mem_cons_self
    obtain ⟨ev, hev, hterm⟩ := groupEvidence_eq (q := q) hlists hne
    have hrest := ih fun b hb => hgs b (List.mem_cons_of_mem g hb)
    rw [termSource, hev, List.filterMap_cons, hterm]
    simp only
    split
    · exact hrest
    · cases gs with
      | nil => rfl
      | cons b gs =>
        simp only [hrest]
        rfl

theorem evidenceAt_termCandidates (h : ByShard es) :
    Ascending (termCandidates q es) ∧
      ∀ id, evidenceAt (termCandidates q es) id = termEvidence? q (listsAt es id) := by
  have hcs : Ascending (termCandidates q es) := by
    refine List.pairwise_filterMap.mpr ((groups_spec h).1.imp ?_)
    intro a b hlt c hc d hd
    obtain ⟨-, -, rfl⟩ := Option.map_eq_some_iff.mp hc
    obtain ⟨-, -, rfl⟩ := Option.map_eq_some_iff.mp hd
    exact hlt
  refine ⟨hcs, fun id => Option.ext fun ev => ?_⟩
  rw [evidenceAt_eq_some_iff hcs, termCandidates, List.mem_filterMap]
  constructor
  · rintro ⟨⟨id', vs⟩, hg, hc⟩
    obtain ⟨e, he, hc⟩ := Option.map_eq_some_iff.mp hc
    obtain ⟨hid, rfl⟩ := Candidate.mk.inj hc
    change id' = id at hid
    subst hid
    rw [listsAt, ← ((mem_groups_iff h).mp hg).1]
    exact he
  · intro he
    have hne : valuesAt es id ≠ [] := by
      intro hnil
      rw [listsAt, hnil] at he
      simp [uidLists, termEvidence?] at he
    exact ⟨(id, valuesAt es id), (mem_groups_iff h).mpr ⟨rfl, hne⟩, by rw [← listsAt, he]; rfl⟩

end ShardedSearch.Lookup
