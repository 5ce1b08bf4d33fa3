import ShardedSearch.Store.Basic

/-! # Batches

Entries read from a scanner in batches of a given size. A first batch that fails is an
error at once; a later one ends the entries and leaves its error behind them.
-/

namespace ShardedSearch.Lookup

open Store

structure Batches where
  entries : List Entry
  /-- The error of a batch behind the entries. -/
  late : Option StoreError

namespace Batches

/-- The batches behind the first one. Each but the last has an entry, so there are at most
as many as the table has entries. -/
def readRest (size : Nat) : Nat → Scanner → Batches
  | 0, _ => ⟨[], none⟩
  | n + 1, s =>
    match s.readMany size with
    | (es, .enough, s) =>
      let rest := readRest size n s
      ⟨es ++ rest.entries, rest.late⟩
    | (es, .exhausted, _) => ⟨es, none⟩
    | (_, .failed e, _) => ⟨[], some e⟩

/-- All batches, or the first one only. A batch has room for at least one entry. -/
def read (size : Nat) (firstOnly : Bool) (s : Scanner) : Except StoreError Batches :=
  match s.readMany (max size 1) with
  | (es, .enough, s) =>
    if firstOnly then .ok ⟨es, none⟩
    else
      let rest := readRest (max size 1) (s.entries.length + 1) s
      .ok ⟨es ++ rest.entries, rest.late⟩
  | (es, .exhausted, _) => .ok ⟨es, none⟩
  | (_, .failed e, _) => .error e

end Batches

end ShardedSearch.Lookup
