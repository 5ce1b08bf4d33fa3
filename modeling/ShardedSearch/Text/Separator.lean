/-! # Separators

Text cut at a separator character: at its first occurrence, at its last, or at
every one. The pieces joined by the separator give the text back.
-/

namespace ShardedSearch.Text

def cutFirst? (sep : Char) : List Char → Option (List Char × List Char)
  | [] => none
  | c :: cs => if c = sep then some ([], cs) else (cutFirst? sep cs).map fun p => (c :: p.1, p.2)

def cutLast? (sep : Char) : List Char → Option (List Char × List Char)
  | [] => none
  | c :: cs =>
    match cutLast? sep cs with
    | some p => some (c :: p.1, p.2)
    | none => if c = sep then some ([], cs) else none

/-- All pieces between separators; text without one is a single piece. -/
def pieces (sep : Char) : List Char → List (List Char)
  | [] => [[]]
  | c :: cs =>
    if c = sep then [] :: pieces sep cs
    else match pieces sep cs with
      | [] => [[c]]
      | p :: ps => (c :: p) :: ps

theorem cutFirst?_eq_some_iff {sep : Char} {cs a b : List Char} :
    cutFirst? sep cs = some (a, b) ↔ cs = a ++ sep :: b ∧ sep ∉ a := by
  induction cs generalizing a with
  | nil => simp [cutFirst?]
  | cons c cs ih =>
    unfold cutFirst?
    split
    · next h =>
      subst h
      constructor
      · rintro ⟨⟩
        simp
      · rintro ⟨h, hn⟩
        cases a with
        | nil => simpa using h
        | cons x a => simp at h; simp [h.1] at hn
    · next h =>
      constructor
      · intro he
        obtain ⟨⟨a', b'⟩, hp, he⟩ := Option.map_eq_some_iff.mp he
        obtain ⟨rfl, rfl⟩ := Prod.mk.inj he
        obtain ⟨rfl, hn⟩ := ih.mp hp
        exact ⟨rfl, by simpa [hn] using fun e => h e.symm⟩
      · rintro ⟨he, hn⟩
        cases a with
        | nil => simp at he; exact absurd he.1 h
        | cons x a =>
          obtain ⟨rfl, hcs⟩ := List.cons.inj he
          rw [List.mem_cons, not_or] at hn
          simp [ih.mpr ⟨hcs, hn.2⟩]

theorem cutFirst?_eq_none_iff {sep : Char} {cs : List Char} :
    cutFirst? sep cs = none ↔ sep ∉ cs := by
  induction cs with
  | nil => simp [cutFirst?]
  | cons c cs ih =>
    unfold cutFirst?
    split
    · next h => simp [h]
    · next h => simpa [ih] using fun _ e => h e.symm

def splitFirst? (sep : Char) (s : String) : Option (String × String) :=
  (cutFirst? sep s.toList).map fun p => (String.ofList p.1, String.ofList p.2)

def splitLast? (sep : Char) (s : String) : Option (String × String) :=
  (cutLast? sep s.toList).map fun p => (String.ofList p.1, String.ofList p.2)

def split (sep : Char) (s : String) : List String := (pieces sep s.toList).map String.ofList

/-- The part before the first separator, or all of the text without one. -/
def before (sep : Char) (s : String) : String := String.ofList (s.toList.takeWhile (· ≠ sep))

end ShardedSearch.Text
