import ShardedSearch.Text.Separator

/-! # Shard ids

A shard id is a day, an underscore and a number; the day alone stands for all of its
shards. Ids are ordered as text, so a day comes before its own shards.
-/

namespace ShardedSearch

abbrev ShardId := String

instance : Min ShardId := minOfLe

instance : Max ShardId := ⟨fun a b => if b ≤ a then a else b⟩

instance : Std.LawfulOrderLeftLeaningMax ShardId :=
  ⟨fun _ _ h => if_pos h, fun _ _ h => if_neg h⟩

namespace Shard

/-- Between the day and the number. -/
def mark : Char := '_'

def ofDay (day : String) (number : Nat) : ShardId := day ++ "_" ++ toString number

def isDay (id : ShardId) : Bool := !id.toList.contains mark

/-- The day of a shard; a day is its own day. -/
def dayOf (id : ShardId) : String := Text.before mark id

/-- Whether the first id is a day and the second one of its shards. -/
def covers (outer inner : ShardId) : Bool :=
  isDay outer && (outer.toList ++ [mark]).isPrefixOf inner.toList

/-- Whether a stream at the first id has to move on to reach the second. -/
def precedes (id target : ShardId) : Bool := id < target && !covers id target

theorem covers_iff {outer inner : ShardId} :
    covers outer inner = true ↔
      isDay outer = true ∧ ∃ rest, inner.toList = outer.toList ++ mark :: rest := by
  simp only [covers, Bool.and_eq_true, List.isPrefixOf_iff_prefix, List.IsPrefix,
    and_congr_right_iff]
  exact fun _ => exists_congr fun _ => by simp [eq_comm]

theorem precedes_iff {id target : ShardId} :
    precedes id target = true ↔ id < target ∧ covers id target = false := by
  simp [precedes]

theorem not_precedes_self (id : ShardId) : precedes id id = false := by
  rw [precedes, decide_eq_false (String.lt_irrefl id), Bool.false_and]

theorem least_of_min? {id : ShardId} {ids : List ShardId} (h : ids.min? = some id) :
    id ∈ ids ∧ ∀ j ∈ ids, ¬ j < id :=
  (List.min?_eq_some_iff.mp h).imp_right fun h j hj => String.not_lt.mpr (h j hj)

theorem greatest_of_max? {id : ShardId} {ids : List ShardId} (h : ids.max? = some id) :
    id ∈ ids ∧ ∀ j ∈ ids, ¬ id < j :=
  (List.max?_eq_some_iff.mp h).imp_right fun h j hj => String.not_lt.mpr (h j hj)

end Shard

end ShardedSearch
