import ShardedSearch.Text.Printable

/-! # Escaped text

Text made visible for messages. Quotes and backslashes get a backslash; common
controls their letter; any other character without a glyph its code point. A mark
that would attach to nothing, at the start of the text, is shown by code point too.
-/

namespace ShardedSearch.Text

def hexDigits (n : Nat) : List Char := Nat.toDigits 16 n

def escapeByCodePoint (c : Char) : List Char :=
  ['\\', 'u', '\x7b'] ++ hexDigits c.toNat ++ ['\x7d']

/-- One character as shown after another one. -/
def escapeChar (c : Char) : List Char :=
  if c = '\x00' then ['\\', '0']
  else if c = '\t' then ['\\', 't']
  else if c = '\r' then ['\\', 'r']
  else if c = '\n' then ['\\', 'n']
  else if c = '\'' ∨ c = '"' ∨ c = '\\' then ['\\', c]
  else if isPrintable c then [c]
  else escapeByCodePoint c

def escapeChars : List Char → List Char
  | [] => []
  | c :: cs =>
    (if isExtending c then escapeByCodePoint c else escapeChar c) ++ cs.flatMap escapeChar

def escape (s : String) : String := String.ofList (escapeChars s.toList)

end ShardedSearch.Text
