import ShardedSearch.DayIndex.Prune
import ShardedSearch.Proofs.Query.Clauses

/-! # Truth of pruned queries

Pruning does not know whether a term that was not looked up, a negation or a marked
conjunction holds. Whatever they are, a pruned query has the truth value of the whole one as
long as the terms that the entry refutes are false.
-/

namespace ShardedSearch

namespace Query

mutual

/-- The truth value of a query under one of all that is not a conjunction or a disjunction,
negations and marked conjunctions included. -/
def holdsGiven (value : Query → Bool) : Query → Bool
  | and cs => allHoldGiven value cs
  | or cs => anyHoldsGiven value cs
  | q => value q

def allHoldGiven (value : Query → Bool) : List Query → Bool
  | [] => Bool.true
  | c :: cs => holdsGiven value c && allHoldGiven value cs

def anyHoldsGiven (value : Query → Bool) : List Query → Bool
  | [] => Bool.false
  | c :: cs => holdsGiven value c || anyHoldsGiven value cs

end

section Given

variable (value : Query → Bool)

theorem allHoldGiven_eq (cs : List Query) :
    allHoldGiven value cs = cs.all (holdsGiven value) := by
  induction cs with
  | nil => rfl
  | cons c cs ih => rw [allHoldGiven, ih, List.all_cons]

theorem anyHoldsGiven_eq (cs : List Query) :
    anyHoldsGiven value cs = cs.any (holdsGiven value) := by
  induction cs with
  | nil => rfl
  | cons c cs ih => rw [anyHoldsGiven, ih, List.any_cons]

theorem holdsGiven_and (cs : List Query) :
    (and cs).holdsGiven value = cs.all (holdsGiven value) := by
  rw [holdsGiven, allHoldGiven_eq]

theorem holdsGiven_or (cs : List Query) :
    (or cs).holdsGiven value = cs.any (holdsGiven value) := by
  rw [holdsGiven, anyHoldsGiven_eq]

theorem any_join?_and {cs : List Query} (h : cs ≠ []) :
    (join? and cs).any (holdsGiven value) = cs.all (holdsGiven value) := by
  rcases cs with _ | ⟨c, _ | ⟨d, cs⟩⟩
  · exact absurd rfl h
  · exact (Bool.and_true _).symm
  · exact holdsGiven_and value (c :: d :: cs)

theorem any_join?_or (cs : List Query) :
    (join? or cs).any (holdsGiven value) = cs.any (holdsGiven value) := by
  rcases cs with _ | ⟨c, _ | ⟨d, cs⟩⟩
  · rfl
  · exact (Bool.or_false _).symm
  · exact holdsGiven_or value (c :: d :: cs)

end Given

end Query

namespace DayIndex

open Index (PeriodEntry)

variable {e : PeriodEntry} {wanted : SortedSet String} {offset : Nat} {value : Query → Bool}

/-- Whether equalities that an entry refutes at an offset are false: those whose bit is unset,
and those that were looked up without being found. -/
structure Respects (e : PeriodEntry) (wanted : SortedSet String) (offset : Nat)
    (value : Query → Bool) : Prop where
  unset : ∀ field literal offsets, e.get? (Query.equality field literal).text = some offsets →
    offsets.contains offset = false → value (.equality field literal) = false
  missing : ∀ field literal, e.get? (Query.equality field literal).text = none →
    (Query.equality field literal).text ∈ wanted → value (.equality field literal) = false
  falsum : value .false = false

theorem Respects.eq_false (h : Respects e wanted offset value) {field : String}
    {literal : Option String}
    (hmay : mayHold e wanted offset (Query.equality field literal).text = false) :
    value (.equality field literal) = false := by
  unfold mayHold at hmay
  split at hmay
  · next offsets hget => exact h.unset field literal offsets hget hmay
  · next hget =>
    exact h.missing field literal hget (Decidable.not_not.mp (of_decide_eq_false hmay))

theorem respects_mem {ts : List Query} (hmay : ∀ t ∈ ts, mayHold e wanted offset t.text = true)
    (hfalse : Query.false ∉ ts) : Respects e wanted offset fun q => decide (q ∈ ts) where
  unset field literal offsets hget hbit := by
    refine decide_eq_false fun hmem => ?_
    have hset := hmay _ hmem
    simp only [mayHold, hget, hbit, Bool.false_eq_true] at hset
  missing field literal hget hwanted := by
    refine decide_eq_false fun hmem => ?_
    have hset := hmay _ hmem
    simp only [mayHold, hget, hwanted, not_true_eq_false, decide_false, Bool.false_eq_true] at hset
  falsum := decide_eq_false hfalse

theorem pruneEach_eq_nil_iff {cs : List Query} :
    pruneEach e wanted offset cs = some [] ↔ cs = [] := by
  cases cs with
  | nil => simp [pruneEach]
  | cons c cs => rw [pruneEach]; split <;> simp

mutual

/-- By cases on what becomes of a query: it stays, it loses branches, or nothing of it is left
and it is false. -/
theorem any_prune (h : Respects e wanted offset value) : ∀ q : Query,
    ¬ Query.IsClauseOf (.and []) q →
      (prune e wanted offset q).any (Query.holdsGiven value) = q.holdsGiven value
  | .equality field literal, _ => by
    rw [prune]
    split
    · rfl
    · next hmay => exact (h.eq_false (Bool.eq_false_iff.mpr hmay)).symm
  | .and cs, hq => by
    have hcs := any_pruneEach h cs fun c hc hin => hq (.and hc hin)
    have hne : cs ≠ [] := fun hnil => hq (hnil ▸ .self)
    rw [prune, Query.holdsGiven_and, ← hcs]
    split
    · next ds hds =>
      rw [hds]
      exact Query.any_join?_and value fun hnil => hne (pruneEach_eq_nil_iff.mp (hnil ▸ hds))
    · next hnone => rw [hnone]; rfl
  | .or cs, hq => by
    rw [prune, Query.any_join?_or, any_pruneAny h cs fun c hc hin => hq (.or hc hin),
      Query.holdsGiven_or]
  | .false, _ => h.falsum.symm
  | .marked .., _ => rfl
  | .not _, _ => rfl
  | .range .., _ => rfl
  | .compare .., _ => rfl
  | .regex .., _ => rfl
  | .function .., _ => rfl
  | .assignment .., _ => rfl
  | .true, _ => rfl

theorem any_pruneEach (h : Respects e wanted offset value) :
    ∀ cs : List Query, (∀ c ∈ cs, ¬ Query.IsClauseOf (.and []) c) →
    (pruneEach e wanted offset cs).any (·.all (Query.holdsGiven value)) =
      cs.all (Query.holdsGiven value)
  | [], _ => rfl
  | c :: cs, hcs => by
    rw [pruneEach, List.all_cons, ← any_prune h c (hcs c List.mem_cons_self),
      ← any_pruneEach h cs fun d hd => hcs d (List.mem_cons_of_mem c hd)]
    cases prune e wanted offset c <;> cases pruneEach e wanted offset cs <;> simp

theorem any_pruneAny (h : Respects e wanted offset value) :
    ∀ cs : List Query, (∀ c ∈ cs, ¬ Query.IsClauseOf (.and []) c) →
    (pruneAny e wanted offset cs).any (Query.holdsGiven value) =
      cs.any (Query.holdsGiven value)
  | [], _ => rfl
  | c :: cs, hcs => by
    rw [pruneAny, List.any_cons, ← any_prune h c (hcs c List.mem_cons_self),
      ← any_pruneAny h cs fun d hd => hcs d (List.mem_cons_of_mem c hd)]
    cases prune e wanted offset c <;> simp

end

/-- What is left of a query is true where the query is, and where nothing is left it is false.
An empty conjunction would be true and is lost, so none may be a clause; inside negations and
marked conjunctions nothing is pruned. -/
theorem prune_keeps_truth (h : Respects e wanted offset value) (q : Query)
    (hq : ¬ Query.IsClauseOf (.and []) q) :
    (prune e wanted offset q = none → q.holdsGiven value = false) ∧
    ∀ p, prune e wanted offset q = some p → p.holdsGiven value = q.holdsGiven value := by
  have hany := any_prune h q hq
  constructor
  · intro hnone
    rw [← hany, hnone]
    rfl
  · intro p hp
    rw [← hany, hp]
    rfl

def firstShard : PeriodEntry := ⟨"20250101", .ofList [((Query.equals "A" "1").text, .ofList [0])]⟩

def openQuery : Query :=
  .and [.or [.equals "A" "1", .equals "B" "2"], .not (.equals "C" "3"),
    .marked .delayed [.equals "B" "2"]]

def lookedUp : SortedSet String :=
  .ofList [(Query.equals "A" "1").text, (Query.equals "B" "2").text]

def openClauses : List Query := [.not (.equals "C" "3"), .marked .delayed [.equals "B" "2"]]

theorem prune_keeps_truth_openQuery :
    (∃ p, prune firstShard lookedUp 0 openQuery = some p ∧ p ≠ openQuery ∧
      p.holdsGiven (· ∈ .equals "A" "1" :: openClauses) =
        openQuery.holdsGiven (· ∈ .equals "A" "1" :: openClauses)) ∧
    prune firstShard lookedUp 1 openQuery = none ∧
      openQuery.holdsGiven (· ∈ openClauses) = false := by
  have hfirst : Respects firstShard lookedUp 0 (· ∈ .equals "A" "1" :: openClauses) :=
    respects_mem (by decide +kernel) (by decide)
  have hsecond : Respects firstShard lookedUp 1 (· ∈ openClauses) :=
    respects_mem (by decide +kernel) (by decide)
  have hq : ¬ Query.IsClauseOf (.and []) openQuery := by
    rintro (_ | ⟨hd, hc⟩)
    simp only [List.mem_cons, List.not_mem_nil, or_false] at hd
    rcases hd with rfl | rfl | rfl
    · obtain _ | _ | ⟨hd, hc⟩ := hc
      simp only [List.mem_cons, List.not_mem_nil, or_false] at hd
      rcases hd with rfl | rfl <;> cases hc
    · cases hc
    · cases hc
  have hsome : prune firstShard lookedUp 0 openQuery =
      some (.and (.equals "A" "1" :: openClauses)) := by decide +kernel
  have hnone : prune firstShard lookedUp 1 openQuery = none := by decide +kernel
  exact ⟨⟨_, hsome, by decide, (prune_keeps_truth hfirst openQuery hq).2 _ hsome⟩, hnone,
    (prune_keeps_truth hsecond openQuery hq).1 hnone⟩

end DayIndex

end ShardedSearch
