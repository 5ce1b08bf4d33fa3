import ShardedSearch.Number.Integer

/-! # Tokens of settings files

Words, strings and marks. Strings in double quotes have escapes, strings in single
quotes have none; neither goes over the end of a line. A comment runs from a number
sign to the end of its line.
-/

namespace ShardedSearch.Settings

inductive Token where
  /-- Letters, digits, signs and points without quotes or blanks. -/
  | word (cs : List Char)
  | text (cs : List Char)
  | newline
  | equals
  | comma
  | opening
  | closing
deriving DecidableEq

/-- What is being read, with its characters so far in reverse. -/
inductive Mode where
  | plain
  | word (read : List Char)
  | comment
  /-- Behind a carriage return. -/
  | lineEnd
  | quoted (read : List Char)
  | escape (read : List Char)
  /-- Inside a code point with some digits to come. -/
  | codePoint (digits value : Nat) (read : List Char)
  | literal (read : List Char)

def isWordChar (c : Char) : Bool := c.isAlphanum || c = '_' || c = '-' || c = '+' || c = '.'

def isControl (c : Char) : Bool := (c.toNat < 32 && c ≠ '\t') || c.toNat = 127

def hexValue? (c : Char) : Option Nat :=
  if c.isDigit then some (c.toNat - '0'.toNat)
  else if 'a' ≤ c ∧ c ≤ 'f' then some (c.toNat - 'a'.toNat + 10)
  else if 'A' ≤ c ∧ c ≤ 'F' then some (c.toNat - 'A'.toNat + 10)
  else none

def stepPlain : Char → Option (List Token × Mode)
  | ' ' => some ([], .plain)
  | '\t' => some ([], .plain)
  | '\n' => some ([.newline], .plain)
  | '\r' => some ([], .lineEnd)
  | '#' => some ([], .comment)
  | '"' => some ([], .quoted [])
  | '\'' => some ([], .literal [])
  | '=' => some ([.equals], .plain)
  | ',' => some ([.comma], .plain)
  | '[' => some ([.opening], .plain)
  | ']' => some ([.closing], .plain)
  | c => if isWordChar c then some ([], .word [c]) else none

def stepEscape (read : List Char) : Char → Option Mode
  | 'b' => some (.quoted ('\x08' :: read))
  | 't' => some (.quoted ('\t' :: read))
  | 'n' => some (.quoted ('\n' :: read))
  | 'f' => some (.quoted ('\x0c' :: read))
  | 'r' => some (.quoted ('\r' :: read))
  | '"' => some (.quoted ('"' :: read))
  | '\\' => some (.quoted ('\\' :: read))
  | 'u' => some (.codePoint 4 0 read)
  | 'U' => some (.codePoint 8 0 read)
  | _ => none

/-- One digit of a code point; the last one makes it a character. -/
def stepCodePoint (digits value : Nat) (read : List Char) (c : Char) : Option Mode := do
  let value := 16 * value + (← hexValue? c)
  if 1 < digits then some (.codePoint (digits - 1) value read)
  else if value.isValidChar then some (.quoted (Char.ofNat value :: read))
  else none

/-- The tokens that end with a character, and what is read behind it. -/
def step : Mode → Char → Option (List Token × Mode)
  | .plain, c => stepPlain c
  | .word read, c =>
    if isWordChar c then some ([], .word (c :: read))
    else (stepPlain c).map fun p => (.word read.reverse :: p.1, p.2)
  | .comment, '\n' => some ([.newline], .plain)
  | .comment, '\r' => some ([], .lineEnd)
  | .comment, c => if isControl c then none else some ([], .comment)
  | .lineEnd, c => if c = '\n' then some ([.newline], .plain) else none
  | .quoted read, '"' => some ([.text read.reverse], .plain)
  | .quoted read, '\\' => some ([], .escape read)
  | .quoted read, c => if isControl c then none else some ([], .quoted (c :: read))
  | .escape read, c => (stepEscape read c).map ([], ·)
  | .codePoint digits value read, c => (stepCodePoint digits value read c).map ([], ·)
  | .literal read, '\'' => some ([.text read.reverse], .plain)
  | .literal read, c => if isControl c then none else some ([], .literal (c :: read))

def scan : Mode → List Char → Option (List Token)
  | .plain, [] => some []
  | .comment, [] => some []
  | .word read, [] => some [.word read.reverse]
  | _, [] => none
  | mode, c :: cs => do
    let (ts, mode) ← step mode c
    some (ts ++ (← scan mode cs))

end ShardedSearch.Settings
