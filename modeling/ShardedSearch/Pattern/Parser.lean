import ShardedSearch.Number.Integer
import ShardedSearch.Pattern.Basic
import ShardedSearch.Text.Separator

/-! # Patterns from text

The written form of patterns: characters stand for themselves, a backslash takes the
meaning from a mark or makes a letter a class, brackets list characters, parentheses
group, a bar separates alternatives, and counts follow what they repeat. A question
mark after a count changes which match is preferred, not whether there is one.
-/

namespace ShardedSearch.Pattern

inductive Token where
  | item (p : Pattern)
  | times (least : Nat) (most : Option Nat)
  | bar
  | opening
  | closing

/-- The part of a pattern a character belongs to. -/
inductive Mode where
  | plain
  | escaped
  /-- Inside braces, with the characters so far in reverse. -/
  | count (read : List Char)
  /-- Inside brackets, with the characters so far in reverse. -/
  | set (read : List Char)

def plainToken (c : Char) : Token :=
  match c with
  | '(' => .opening
  | ')' => .closing
  | '|' => .bar
  | '*' => .times 0 none
  | '+' => .times 1 none
  | '?' => .times 0 (some 1)
  | '^' => .item atStart
  | '$' => .item atEnd
  | '.' => .item (one .any)
  | c => .item (one (.char c))

def escaped? (c : Char) : Option Token :=
  if c = 'd' then some (.item (one .digit))
  else if c.isAlphanum || 127 < c.toNat then none
  else some (.item (one (.char c)))

/-- A number of repetitions; without text there is none. -/
def count? (cs : List Char) : Option Nat := (Number.digits Number.wordMax .tooLarge cs).toOption

def bounds? (cs : List Char) : Option Token := do
  match Text.cutFirst? ',' cs with
  | none =>
    let n ← count? cs
    some (.times n (some n))
  | some (least, []) => some (.times (← count? least) none)
  | some (least, most) =>
    let n ← count? least
    let m ← count? most
    if n ≤ m then some (.times n (some m)) else none

/-- Single characters and ranges between brackets; no range runs backwards. -/
def ranges? : List Char → Option (List (Char × Char))
  | [] => some []
  | a :: '-' :: b :: cs => if a ≤ b then (ranges? cs).map ((a, b) :: ·) else none
  | a :: cs => (ranges? cs).map ((a, a) :: ·)

def set? : List Char → Option Token
  | [] => none
  | ['^'] => none
  | '^' :: cs => (ranges? cs).map fun rs => .item (one (.noneOf rs))
  | cs => (ranges? cs).map fun rs => .item (one (.oneOf rs))

def scan : Mode → List Char → Option (List Token)
  | .plain, [] => some []
  | .plain, '\\' :: cs => scan .escaped cs
  | .plain, '\x7b' :: cs => scan (.count []) cs
  | .plain, '[' :: cs => scan (.set []) cs
  | .plain, c :: cs => (scan .plain cs).map (plainToken c :: ·)
  | .escaped, c :: cs => do some ((← escaped? c) :: (← scan .plain cs))
  | .count read, '\x7d' :: cs => do some ((← bounds? read.reverse) :: (← scan .plain cs))
  | .count read, c :: cs => scan (.count (c :: read)) cs
  | .set read, ']' :: cs => do some ((← set? read.reverse) :: (← scan .plain cs))
  | .set read, c :: cs => scan (.set (c :: read)) cs
  | _, [] => none

/-- A group that is still open: its finished alternatives, and the items of the current
one in reverse. -/
structure Group where
  alternatives : Option Pattern
  items : List Pattern

namespace Group

def start : Group := ⟨none, []⟩

def sequence : List Pattern → Pattern
  | [] => empty
  | [p] => p
  | p :: ps => seq (sequence ps) p

def finish (g : Group) : Pattern :=
  match g.alternatives with
  | some p => either p (sequence g.items)
  | none => sequence g.items

def repeatLast? (g : Group) (least : Nat) (most : Option Nat) : Option Group :=
  match g.items with
  | p :: ps => some { g with items := p.between least most :: ps }
  | [] => none

end Group

/-- Builds the pattern of tokens from the innermost open group and those around it. -/
def build (g : Group) (outer : List Group) : List Token → Option Pattern
  | [] => if outer.isEmpty then some g.finish else none
  | .item p :: ts => build { g with items := p :: g.items } outer ts
  | .bar :: ts => build ⟨some g.finish, []⟩ outer ts
  | .opening :: ts => build .start (g :: outer) ts
  | .closing :: ts =>
    match outer with
    | o :: outer => build { o with items := g.finish :: o.items } outer ts
    | [] => none
  | .times least most :: .times 0 (some 1) :: ts =>
    match g.repeatLast? least most with
    | some g => build g outer ts
    | none => none
  | .times least most :: ts =>
    match g.repeatLast? least most with
    | some g => build g outer ts
    | none => none

def ofText? (s : String) : Option Pattern := do build .start [] (← scan .plain s.toList)

end ShardedSearch.Pattern
