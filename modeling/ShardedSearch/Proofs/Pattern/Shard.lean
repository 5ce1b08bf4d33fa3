import ShardedSearch.Pattern.Parser
import ShardedSearch.Proofs.Index.Days
import ShardedSearch.Settings.Basic

/-! # The pattern of shard ids

By default the shards of days with years of four digits are planned.
-/

namespace ShardedSearch

open Calendar (Date)

namespace Pattern

variable {length : Nat} {p q rest : Pattern} {ds cs rs : List Char}

theorem mem_rests_seq (ms : List Char) (hp : ms ∈ rests length p cs)
    (hq : rs ∈ rests length q ms) : rs ∈ rests length (seq p q) cs := by
  rw [rests]
  exact List.mem_flatMap.mpr ⟨ms, hp, hq⟩

theorem mem_rests_digit {c : Char} (hc : c.isDigit = true) :
    cs ∈ rests length (one .digit) (c :: cs) := by
  rw [rests, CharClass.has, if_pos (Text.isDecimalDigit_of_isDigit hc)]
  exact List.mem_singleton_self cs

theorem mem_rests_digits (hd : ∀ c ∈ ds, c.isDigit = true) (h : rs ∈ rests length rest cs) :
    rs ∈ rests length (times (one .digit) ds.length rest) (ds ++ cs) := by
  induction ds with
  | nil => exact h
  | cons d ds ih =>
    have hds := ih fun c hc => hd c (List.mem_cons_of_mem d hc)
    exact mem_rests_seq _ (mem_rests_digit (hd d List.mem_cons_self)) hds

theorem nil_mem_closure {n : Nat} (hd : ∀ c ∈ ds, c.isDigit = true) (hn : ds.length ≤ n) :
    [] ∈ closure (rests length (one .digit)) n ds := by
  induction n generalizing ds with
  | zero =>
    obtain rfl := List.eq_nil_of_length_eq_zero (Nat.le_zero.mp hn)
    exact List.mem_singleton_self []
  | succ n ih =>
    cases ds with
    | nil => exact List.mem_cons_self
    | cons d ds =>
      refine List.mem_cons_of_mem _ (List.mem_flatMap.mpr ⟨ds, ?_, ?_⟩)
      · refine List.mem_filter.mpr ⟨mem_rests_digit (hd d List.mem_cons_self), ?_⟩
        simp
      · exact ih (fun c hc => hd c (List.mem_cons_of_mem d hc)) (Nat.le_of_succ_le_succ hn)

theorem occursFrom_of_mem_rests (h : rs ∈ rests length p cs) : occursFrom length p cs = true := by
  have hne : (rests length p cs).isEmpty = false := by
    rw [← Bool.not_eq_true, List.isEmpty_iff]
    exact List.ne_nil_of_mem h
  cases cs with
  | nil => rw [occursFrom, hne]; rfl
  | cons c cs => rw [occursFrom, hne]; rfl

def shard : Pattern :=
  seq (seq (seq atStart (times (one .digit) 8 empty))
    (optional (seq (seq (one (.char '_')) (seq (one .digit) (star (one .digit)))) empty))) atEnd

theorem ofText?_default : ofText? ({} : PlanSettings).idPattern = some shard := by decide

theorem shard_occursIn_ofDay {d : Date} (hd : d.HasShortYear) (n : Nat) :
    shard.occursIn (Shard.ofDay d.text n) = true := by
  have hdigits : ∀ c ∈ Nat.toDigits 10 n, c.isDigit = true := fun c hc =>
    Nat.isDigit_of_mem_toDigits (by decide) (by decide) hc
  obtain ⟨x, xs, hx⟩ := List.exists_cons_of_ne_nil (Nat.toDigits_ne_nil (n := n) (b := 10))
  rw [occursIn, Index.Layout.toList_ofDay, Index.Layout.toList_text]
  have hend : [] ∈ rests (Shard.ofDay d.text n).toList.length atEnd [] := by simp [rests]
  refine occursFrom_of_mem_rests (mem_rests_seq [] ?_ hend)
  refine mem_rests_seq ('_' :: Nat.toDigits 10 n) ?_ ?_
  · apply mem_rests_seq (d.chars ++ '_' :: Nat.toDigits 10 n) (by simp [rests])
    rw [← Date.length_chars hd]
    exact mem_rests_digits (Date.isDigit_of_mem_chars hd) (by simp [rests])
  · rw [optional, rests]
    refine List.mem_append_left _ (mem_rests_seq [] ?_ (by simp [rests]))
    apply mem_rests_seq (Nat.toDigits 10 n) (by simp [rests, CharClass.has])
    rw [hx] at hdigits ⊢
    apply mem_rests_seq _ (mem_rests_digit (hdigits x List.mem_cons_self))
    rw [rests]
    exact nil_mem_closure (fun c hc => hdigits c (List.mem_cons_of_mem x hc)) (Nat.le_refl _)

/-- Every id that is planned by default starts with a digit. -/
theorem rests_shard_of_ne (h : ∀ c, cs.head? = some c → Text.isDecimalDigit c = false) :
    rests length shard cs = [] := by
  have hstart : rests length (seq atStart (times (one .digit) 8 empty)) cs = [] := by
    rw [rests, rests]
    split
    · rw [List.flatMap_singleton, times, rests]
      cases cs with
      | nil => rfl
      | cons c cs => rw [rests, CharClass.has, h c rfl]; rfl
    · rfl
  rw [shard, rests, rests, hstart]
  rfl

theorem rests_shard_of_length_ne (h : cs.length ≠ length) : rests length shard cs = [] := by
  rw [shard, rests, rests, rests, rests, if_neg h]
  rfl

theorem occursFrom_shard_of_length_lt (h : cs.length < length) :
    occursFrom length shard cs = false := by
  induction cs with
  | nil => rw [occursFrom, rests_shard_of_length_ne (Nat.ne_of_lt h)]; rfl
  | cons c cs ih =>
    rw [occursFrom, rests_shard_of_length_ne (Nat.ne_of_lt h), ih (Nat.lt_of_succ_lt h)]
    rfl

theorem not_shard_occursIn {id : ShardId} {c : Char} (hid : id.toList = c :: cs)
    (hc : Text.isDecimalDigit c = false) : shard.occursIn id = false := by
  have hrests : rests (c :: cs).length shard (c :: cs) = [] := by
    apply rests_shard_of_ne
    intro d hd
    obtain rfl := Option.some.inj hd
    exact hc
  have hrest : occursFrom (c :: cs).length shard cs = false :=
    occursFrom_shard_of_length_lt (Nat.lt_succ_self _)
  rw [occursIn, hid, occursFrom, hrests, hrest]
  rfl

end Pattern

end ShardedSearch
