import ShardedSearch.Index.Layout
import ShardedSearch.Proofs.Store.Scanning
import ShardedSearch.Proofs.Text.Order

/-! # Order of index entries

Entries of one term come in the order of their shards, and whether a term range has an
entry is a matter of its shard alone.
-/

namespace ShardedSearch.Index.Layout

open Store

variable {value field first last : String} {k l : Key} {id : ShardId}

/-- Whether an id lies in the text range of the shards of some days. -/
def InDays (first last : String) (id : ShardId) : Prop :=
  ¬ id < first ++ "_" ∧ (id < last ++ "_" ∨ (last ++ "_").toList <+: id.toList)

theorem aboveStart?_append_singleton {c d : Char} (h : nextChar? c = some d) (cs : List Char) :
    aboveStart? (cs ++ [c]) = some (cs ++ [d]) := by
  induction cs with
  | nil => simp [aboveStart?, h]
  | cons b cs ih => rw [List.cons_append, aboveStart?, ih]; rfl

theorem rowAbove?_day (day : String) : ∃ above, rowAbove? (day ++ "_") = some above := by
  have h : nextChar? '_' = some '`' := by decide
  refine ⟨String.ofList (day.toList ++ ['`']), ?_⟩
  rw [rowAbove?, String.toList_append]
  exact congrArg (Option.map String.ofList) (aboveStart?_append_singleton h day.toList)

theorem contains_termRange_iff :
    (termRange value field first last).contains k = true ↔
      k.row = value ∧ k.family = field ∧ InDays first last k.qualifier := by
  obtain ⟨above, ha⟩ := rowAbove?_day last
  rw [termRange, ha, Range.contains_halfOpen_iff, InDays, ← lt_rowAbove_iff ha, Key.lt_def,
    Key.lt_def]
  constructor
  · rintro ⟨hstart, hstop⟩
    simp only [not_or, not_and] at hstart
    rcases hstop with hstop | ⟨hrow, hstop | ⟨hfam, hstop⟩⟩
    · exact absurd hstop hstart.1
    · exact absurd hstop (hstart.2 hrow).1
    · exact ⟨hrow, hfam, (hstart.2 hrow).2 hfam, hstop⟩
  · rintro ⟨rfl, rfl, hstart, hstop⟩
    refine ⟨?_, .inr ⟨rfl, .inr ⟨rfl, hstop⟩⟩⟩
    rintro (h | ⟨-, h | ⟨-, h⟩⟩)
    · exact String.lt_irrefl _ h
    · exact String.lt_irrefl _ h
    · exact hstart h

theorem inDays_shardOf_iff (hfirst : '\x00' ∉ first.toList) (hlast : '\x00' ∉ last.toList) :
    InDays first last (shardOf k) ↔ InDays first last k.qualifier := by
  have hf : '\x00' ∉ (first ++ "_").toList := by simpa [String.toList_append] using hfirst
  have hl : '\x00' ∉ (last ++ "_").toList := by simpa [String.toList_append] using hlast
  rw [InDays, InDays, shardOf, separator, Text.before_lt_iff hf, Text.before_lt_iff hl,
    Text.before_toList, Text.prefix_takeWhile_iff hl]

theorem not_shardOf_lt (hlt : k < l) (hrow : k.row = l.row) (hfam : k.family = l.family) :
    ¬ shardOf l < shardOf k := by
  rcases Key.lt_def.mp hlt with h | ⟨-, h | ⟨-, h⟩⟩
  · exact absurd (hrow ▸ h) (String.lt_irrefl _)
  · exact absurd (hfam ▸ h) (String.lt_irrefl _)
  · exact Text.not_before_lt h

end ShardedSearch.Index.Layout
