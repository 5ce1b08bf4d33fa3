import ShardedSearch.Candidate.Counts
import ShardedSearch.Index.PeriodEntry
import ShardedSearch.Proofs.Query.Terms
import ShardedSearch.Proofs.Query.Text

/-! # Keys of terms

The text of a term stands for the term: as the key of its bitmap, among the wanted keys of a scan
and as the key of its count. No two terms share a text, whatever their fields look like, so what
is kept under the one is never read for the other.
-/

namespace ShardedSearch

open Index (Bitmap PeriodEntry)
open Query (equals)

variable {field value field' value' : String}

theorem Query.text_equals_inj :
    (equals field value).text = (equals field' value').text ↔ field = field' ∧ value = value' := by
  constructor
  · exact text_equals_injective
  · rintro ⟨rfl, rfl⟩
    rfl

theorem Terms.text_mem_wanted_iff {terms : Terms} :
    (equals field value).text ∈ terms.wanted ↔ terms.has value field = true := by
  constructor
  · intro h
    obtain ⟨⟨field', value'⟩, hp, htext⟩ := List.mem_map.mp (SortedSet.mem_ofList.mp h)
    obtain ⟨rfl, rfl⟩ := Query.text_equals_inj.mp htext
    exact mem_pairs_iff.mp hp
  · exact text_mem_wanted

theorem Index.PeriodEntry.get?_insert_text (e : PeriodEntry) (b : Bitmap) :
    (e.insert (equals field value).text b).get? (equals field' value').text =
      if field' = field ∧ value' = value then
        some ((e.get? (equals field value).text).elim b (·.union b))
      else e.get? (equals field' value').text := by
  simp only [get?, insert, SortedMap.get?_insertWith, Query.text_equals_inj]

theorem Counts.get?_single_text (n : Nat) :
    (single (equals field value) n).terms.get? (equals field' value').text =
      if field' = field ∧ value' = value then some n else none := by
  simp only [single, SortedMap.get?_insert, SortedMap.get?_empty, Query.text_equals_inj]

/-- Comparisons with the same text are the same, and so a term has its text for itself: as the key
of a bitmap, as a wanted key and as the key of a count. -/
theorem texts_tell_terms :
    (∀ p q : Query, p.isComparison = true → q.isComparison = true → (p.text = q.text ↔ p = q)) ∧
    (∀ field value field' value', (equals field value).text = (equals field' value').text ↔
      field = field' ∧ value = value') ∧
    (∀ (e : PeriodEntry) (b : Bitmap) field value field' value',
      (e.insert (equals field value).text b).get? (equals field' value').text =
        if field' = field ∧ value' = value then
          some ((e.get? (equals field value).text).elim b (·.union b))
        else e.get? (equals field' value').text) ∧
    (∀ (terms : Terms) field value,
      (equals field value).text ∈ terms.wanted ↔ terms.has value field = true) ∧
    (∀ field value n field' value',
      (Counts.single (equals field value) n).terms.get? (equals field' value').text =
        if field' = field ∧ value' = value then some n else none) := by
  refine ⟨fun p q hp hq => ⟨Query.text_injective hp hq, congrArg _⟩, fun _ _ _ _ => ?_,
    fun e b _ _ _ _ => ?_, fun _ _ _ => ?_, fun _ _ n _ _ => ?_⟩
  · exact Query.text_equals_inj
  · exact e.get?_insert_text b
  · exact Terms.text_mem_wanted_iff
  · exact Counts.get?_single_text n

/-- A field that looks like a term with an open quote, and a value that looks like its rest. -/
theorem texts_tell_quoted_terms :
    (equals "A" "1' == '2").isComparison = true ∧ (equals "A == '1" "2").isComparison = true ∧
      (equals "A" "1' == '2").text ≠ (equals "A == '1" "2").text :=
  ⟨rfl, rfl, fun h => absurd ((texts_tell_terms.1 _ _ rfl rfl).mp h) (by decide)⟩

end ShardedSearch
