import Mathlib.Tactic.Common
import ShardedSearch.Proofs.Text.Separator
import ShardedSearch.Query.Text

/-! # Texts of terms

A quote inside a value stands behind a backslash, and the one in front of a value behind a
blank. So the text of a term tells where its value starts, and different terms have
different texts.
-/

namespace ShardedSearch.Query

variable {v w zs ws as bs : List Char}

def escaped (v : List Char) : List Char := v.flatMap escapeQuoted

theorem escaped_cons (c : Char) (v : List Char) :
    escaped (c :: v) = escapeQuoted c ++ escaped v := List.flatMap_cons ..

theorem escapeQuoted_of_plain {c : Char} (h : ¬ (c = '\'' ∨ c = '\\')) : escapeQuoted c = [c] :=
  if_neg h

theorem escapeQuoted_of_special {c : Char} (h : c = '\'' ∨ c = '\\') :
    escapeQuoted c = ['\\', c] := if_pos h

/-- Every quote in a value stands behind a backslash. -/
theorem exists_backslash_of_escaped (h : escaped v = zs ++ '\'' :: ws) :
    ∃ ys, zs = ys ++ ['\\'] := by
  induction v generalizing zs with
  | nil => simp [escaped] at h
  | cons c v ih =>
    rw [escaped_cons] at h
    by_cases hc : c = '\'' ∨ c = '\\'
    · rw [escapeQuoted_of_special hc] at h
      match zs, h with
      | [], h => simp at h
      | [z], h =>
        obtain ⟨rfl, -⟩ := List.cons.inj h
        exact ⟨[], rfl⟩
      | z :: y :: zs, h =>
        obtain ⟨ys, rfl⟩ := ih (show escaped v = zs ++ '\'' :: ws by simp at h; exact h.2.2)
        exact ⟨z :: y :: ys, rfl⟩
    · rw [escapeQuoted_of_plain hc] at h
      match zs, h with
      | [], h => exact absurd (.inl (by simp at h; exact h.1)) hc
      | z :: zs, h =>
        obtain ⟨ys, rfl⟩ := ih (show escaped v = zs ++ '\'' :: ws by simp at h; exact h.2)
        exact ⟨z :: ys, rfl⟩

theorem escaped_injective (h : escaped v = escaped w) : v = w := by
  induction v generalizing w with
  | nil =>
    cases w with
    | nil => rfl
    | cons c w =>
      rw [escaped_cons, escapeQuoted] at h
      split at h <;> simp [escaped] at h
  | cons c v ih =>
    cases w with
    | nil =>
      rw [escaped_cons, escapeQuoted] at h
      split at h <;> simp [escaped] at h
    | cons d w =>
      rw [escaped_cons, escaped_cons] at h
      by_cases hc : c = '\'' ∨ c = '\\' <;> by_cases hd : d = '\'' ∨ d = '\\'
      · rw [escapeQuoted_of_special hc, escapeQuoted_of_special hd] at h
        simp only [List.cons_append, List.nil_append, List.cons.injEq, true_and] at h
        rw [h.1, ih h.2]
      · rw [escapeQuoted_of_special hc, escapeQuoted_of_plain hd] at h
        simp only [List.cons_append, List.nil_append, List.cons.injEq] at h
        exact absurd (.inr h.1.symm) hd
      · rw [escapeQuoted_of_plain hc, escapeQuoted_of_special hd] at h
        simp only [List.cons_append, List.nil_append, List.cons.injEq] at h
        exact absurd (.inr h.1) hc
      · rw [escapeQuoted_of_plain hc, escapeQuoted_of_plain hd] at h
        simp only [List.cons_append, List.nil_append, List.cons.injEq] at h
        rw [h.1, ih h.2]

theorem eq_nil_of_eq_append (h : ' ' :: '\'' :: escaped v = zs ++ ' ' :: '\'' :: escaped w) :
    zs = [] := by
  match zs, h with
  | [], _ => rfl
  | [z], h => simp at h
  | z :: y :: zs, h =>
    have hv : escaped v = (zs ++ [' ']) ++ '\'' :: escaped w := by
      simp only [List.cons_append, List.cons.injEq] at h
      simpa using h.2.2
    obtain ⟨ys, hys⟩ := exists_backslash_of_escaped hv
    have := List.append_inj_right' hys rfl
    simp at this

theorem append_quoted_injective
    (h : as ++ ' ' :: '\'' :: escaped v = bs ++ ' ' :: '\'' :: escaped w) : as = bs ∧ v = w := by
  rcases List.append_eq_append_iff.mp h with ⟨cs, rfl, hcs⟩ | ⟨cs, rfl, hcs⟩
  · obtain rfl := eq_nil_of_eq_append hcs
    exact ⟨(List.append_nil as).symm, escaped_injective (by simpa using hcs)⟩
  · obtain rfl := eq_nil_of_eq_append hcs
    exact ⟨List.append_nil bs, escaped_injective (by simpa using hcs.symm)⟩

/-! ### Comparisons -/

variable {p q : Query} {field op field' op' : String} {value value' : Option String}

/-- Whether a query compares a field with a single value, or with none. -/
def isComparison : Query → Bool
  | equality .. | compare .. | regex .. => Bool.true
  | _ => Bool.false

def comparison? : Query → Option (String × String × Option String)
  | equality field literal => some (field, "==", literal)
  | compare field op literal => some (field, op.symbol, literal)
  | regex field pattern => some (field, "=~", pattern)
  | _ => none

theorem exists_comparison? (h : q.isComparison = Bool.true) :
    ∃ field op value, q.comparison? = some (field, op, value) := by
  cases q with
  | equality | compare | regex => exact ⟨_, _, _, rfl⟩
  | _ => cases h

theorem blank_not_mem_symbol (op : Comparison) : ' ' ∉ op.symbol.toList := by
  cases op <;> decide

theorem text_of_comparison? (h : q.comparison? = some (field, op, value)) :
    q.text.toList = condition field op (quotedOrNull value) ∧ ' ' ∉ op.toList := by
  cases q with
  | equality | regex =>
    obtain ⟨rfl, rfl, rfl⟩ := by simpa [comparison?] using h
    exact ⟨by simp [text, write], by decide⟩
  | compare _ c _ =>
    obtain ⟨rfl, rfl, rfl⟩ := by simpa [comparison?] using h
    exact ⟨by simp [text, write], blank_not_mem_symbol c⟩
  | _ => cases h

theorem symbol_inj {c d : Comparison} : c.symbol = d.symbol ↔ c = d := by
  constructor
  · cases c <;> cases d <;> simp [Comparison.symbol]
  · exact congrArg _

theorem symbol_ne (c : Comparison) : c.symbol ≠ "==" ∧ c.symbol ≠ "=~" := by
  cases c <;> decide

theorem comparison?_injective (hp : p.isComparison = Bool.true) (hq : q.isComparison = Bool.true)
    (h : p.comparison? = q.comparison?) : p = q := by
  cases p with
  | equality =>
    cases q with
    | equality => simpa [comparison?] using h
    | compare _ c => simp [comparison?, (symbol_ne c).1.symm] at h
    | regex => simp [comparison?] at h
    | _ => cases hq
  | compare _ c =>
    cases q with
    | equality => simp [comparison?, (symbol_ne c).1] at h
    | compare => simpa [comparison?, symbol_inj] using h
    | regex => simp [comparison?, (symbol_ne c).2] at h
    | _ => cases hq
  | regex =>
    cases q with
    | equality => simp [comparison?] at h
    | compare _ c => simp [comparison?, (symbol_ne c).2.symm] at h
    | regex => simpa [comparison?] using h
    | _ => cases hq
  | _ => cases hp

theorem quoted_ne_null (as bs : List Char) (v : String) :
    as ++ ' ' :: quoted v ≠ bs ++ ' ' :: "null".toList := by
  intro h
  have hlast := congrArg List.getLast? h
  simp [quoted, List.getLast?_cons] at hlast

theorem append_quoted_eq (as : List Char) (v : String) :
    as ++ ' ' :: quoted v = (as ++ ' ' :: '\'' :: escaped v.toList) ++ ['\''] := by
  simp [quoted, escaped]

/-- What stands in front of a value is told apart from the value, and the field from the
operator behind it. -/
theorem condition_injective (hop : ' ' ∉ op.toList) (hop' : ' ' ∉ op'.toList)
    (h : condition field op (quotedOrNull value) = condition field' op' (quotedOrNull value')) :
    field = field' ∧ op = op' ∧ value = value' := by
  have hfront : field.toList ++ ' ' :: op.toList = field'.toList ++ ' ' :: op'.toList ∧
      value = value' := by
    cases value with
    | none =>
      cases value' with
      | none => exact ⟨List.append_inj_left' h rfl, rfl⟩
      | some v' => exact absurd h.symm (quoted_ne_null _ _ v')
    | some v =>
      cases value' with
      | none => exact absurd h (quoted_ne_null _ _ v)
      | some v' =>
        rw [condition, condition, quotedOrNull, quotedOrNull, append_quoted_eq,
          append_quoted_eq] at h
        obtain ⟨hfront, hv⟩ := append_quoted_injective (List.append_inj_left' h rfl)
        exact ⟨hfront, congrArg some (String.toList_inj.mp hv)⟩
  obtain ⟨hfield, hop⟩ := Text.append_separator_injective hfront.1 hop hop'
  exact ⟨String.toList_inj.mp hfield, String.toList_inj.mp hop, hfront.2⟩

theorem text_injective (hp : p.isComparison = Bool.true) (hq : q.isComparison = Bool.true)
    (h : p.text = q.text) : p = q := by
  obtain ⟨field, op, value, hparts⟩ := exists_comparison? hp
  obtain ⟨field', op', value', hparts'⟩ := exists_comparison? hq
  obtain ⟨htext, hop⟩ := text_of_comparison? hparts
  obtain ⟨htext', hop'⟩ := text_of_comparison? hparts'
  rw [h, htext'] at htext
  obtain ⟨rfl, rfl, rfl⟩ := condition_injective hop' hop htext
  exact comparison?_injective hp hq (hparts.trans hparts'.symm)

theorem text_equals_injective {field value field' value' : String}
    (h : (equals field value).text = (equals field' value').text) :
    field = field' ∧ value = value' := by
  simpa [equals] using text_injective (p := equals field value) rfl rfl h

end ShardedSearch.Query
