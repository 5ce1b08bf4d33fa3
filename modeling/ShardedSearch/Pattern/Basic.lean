import ShardedSearch.Text.DecimalDigit

/-! # Patterns

Regular expressions over text, with anchors for its start and its end. A pattern is
matched by the texts it may leave over; a text has an occurrence of a pattern if some
end part of it leaves anything over.
-/

namespace ShardedSearch

/-- A set of characters that stands for one of them. -/
inductive CharClass where
  | char (c : Char)
  | digit
  /-- Any character but a line feed. -/
  | any
  | oneOf (ranges : List (Char × Char))
  | noneOf (ranges : List (Char × Char))
deriving DecidableEq

namespace CharClass

def inRanges (ranges : List (Char × Char)) (c : Char) : Bool :=
  ranges.any fun r => r.1 ≤ c && c ≤ r.2

def has : CharClass → Char → Bool
  | char d, c => c = d
  | digit, c => Text.isDecimalDigit c
  | any, c => c ≠ '\n'
  | oneOf ranges, c => inRanges ranges c
  | noneOf ranges, c => !inRanges ranges c

end CharClass

inductive Pattern where
  | empty
  | one (set : CharClass)
  | seq (first second : Pattern)
  | either (first second : Pattern)
  | star (repeated : Pattern)
  | atStart
  | atEnd
deriving DecidableEq

namespace Pattern

def optional (p : Pattern) : Pattern := either p empty

/-- At most the given number of repetitions. -/
def atMost (p : Pattern) : Nat → Pattern
  | 0 => empty
  | n + 1 => optional (seq p (atMost p n))

def times (p : Pattern) : Nat → Pattern → Pattern
  | 0, rest => rest
  | n + 1, rest => seq p (times p n rest)

/-- From the least to the greatest number of repetitions, if there is a greatest. -/
def between (p : Pattern) (least : Nat) : Option Nat → Pattern
  | some most => times p least (atMost p (most - least))
  | none => times p least (star p)

/-- All texts reached by repeating a step that must get ahead. -/
def closure (step : List Char → List (List Char)) : Nat → List Char → List (List Char)
  | 0, cs => [cs]
  | n + 1, cs =>
    cs :: ((step cs).filter (·.length < cs.length)).flatMap (closure step n)

/-- What a pattern may leave over of the end part of a text of the given length. -/
def rests (length : Nat) : Pattern → List Char → List (List Char)
  | empty, cs => [cs]
  | one set, c :: cs => if set.has c then [cs] else []
  | one _, [] => []
  | seq p q, cs => (rests length p cs).flatMap (rests length q)
  | either p q, cs => rests length p cs ++ rests length q cs
  | star p, cs => closure (rests length p) cs.length cs
  | atStart, cs => if cs.length = length then [cs] else []
  | atEnd, cs => if cs = [] then [cs] else []

def occursFrom (length : Nat) (p : Pattern) : List Char → Bool
  | [] => !(rests length p []).isEmpty
  | c :: cs => !(rests length p (c :: cs)).isEmpty || occursFrom length p cs

def occursIn (p : Pattern) (s : String) : Bool := occursFrom s.toList.length p s.toList

end Pattern

end ShardedSearch
