import ShardedSearch.Settings.Value

/-! # Settings documents

The values of a settings file by their path: the names of the tables around a value,
and its own. A path has one value at most, and what has a value is no table.
-/

namespace ShardedSearch.Settings

/-- Names from the outermost table inwards. -/
abbrev Path := List String

structure Entry where
  path : Path
  value : Value

structure Document where
  /-- Tables with a header of their own. -/
  headers : List Path
  /-- Tables that a key with several names has made. -/
  keyed : List Path
  entries : List Entry

/-! ### Lines -/

/-- Cuts tokens into lines. An array may go over several lines; the level counts the
arrays that are open behind the equals sign, if there was one. -/
def lines : Option Nat → List Token → List (List Token)
  | _, [] => [[]]
  | level, t :: ts =>
    match level, t with
    | none, .newline => [] :: lines none ts
    | some 0, .newline => [] :: lines none ts
    | some n, .newline => lines (some n) ts
    | none, .equals => extend t (lines (some 0) ts)
    | some n, .opening => extend t (lines (some (n + 1)) ts)
    | some n, .closing => extend t (lines (some (n - 1)) ts)
    | level, t => extend t (lines level ts)
where
  extend (t : Token) : List (List Token) → List (List Token)
    | [] => [[t]]
    | l :: ls => (t :: l) :: ls

inductive KeyPart where
  | name (s : String)
  | point

/-- The names and points of a token in a key. A word has only letters, digits, underscores
and dashes between its points. -/
def keyParts? : Token → Option (List KeyPart)
  | .text cs => some [.name (String.ofList cs)]
  | .word cs =>
    if cs.all fun c => c.isAlphanum || c = '_' || c = '-' || c = '.' then
      some (((Text.pieces '.' cs).map name).intersperse [.point]).flatten
    else none
  | _ => none
where
  name (cs : List Char) : List KeyPart := if cs.isEmpty then [] else [.name (String.ofList cs)]

def path? : List KeyPart → Option Path
  | [.name n] => some [n]
  | .name n :: .point :: ps => (path? ps).map (n :: ·)
  | _ => none

def key? (ts : List Token) : Option Path := do
  let p ← path? (← ts.mapM keyParts?).flatten
  if p.length < depthLimit then some p else none

namespace Document

def empty : Document := ⟨[], [], []⟩

/-- Whether one path leads to or through the other. -/
def leadsTo (p q : Path) : Bool := p.isPrefixOf q

/-- Whether a table with a header is at the path or inside it. -/
def leadsToHeader (p : Path) (d : Document) : Bool := d.headers.any (leadsTo p)

/-- Adds a table. It must not have a header already, be or be inside a value, or be a
table that a key has made. -/
def addHeader? (p : Path) (d : Document) : Option Document :=
  if p ∈ d.headers ∨ p ∈ d.keyed ∨ d.entries.any (leadsTo ·.path p) then none
  else some { d with headers := p :: d.headers }

/-- The tables that a key goes through from the table it starts in. -/
def through (start : Path) : Path → List Path
  | n :: m :: ns => (start ++ [n]) :: through (start ++ [n]) (m :: ns)
  | _ => []

/-- Goes into a table that a key names, and makes it where it is missing. It must not be
a value or have a header. -/
def enter? (d : Document) (p : Path) : Option Document :=
  if p ∈ d.headers ∨ d.entries.any (·.path = p) then none
  else if p ∈ d.keyed ∨ d.leadsToHeader p then some d
  else some { d with keyed := p :: d.keyed }

/-- Adds a value. Nothing else must be there, and its table must be the one that its key
starts in or one that a key has made. -/
def addEntry? (start key : Path) (v : Value) (d : Document) : Option Document := do
  let tables := through start key
  let path := start ++ key
  let d ← tables.foldlM enter? d
  if tables.getLast?.any (· ∉ d.keyed) || d.leadsToHeader path ||
      d.entries.any (leadsTo path ·.path) then none
  else some { d with entries := ⟨path, v⟩ :: d.entries }

def addLine? (d : Document) (table : Path) : List Token → Option (Document × Path)
  | [] => some (d, table)
  | .opening :: ts => do
    if ts.getLast? = some .closing then
      let p ← key? ts.dropLast
      (d.addHeader? p).map (·, p)
    else none
  | ts => do
    let key ← key? (ts.takeWhile (· ≠ .equals))
    let v ← Value.ofTokens? (ts.dropWhile (· ≠ .equals)).tail
    (d.addEntry? table key v).map (·, table)

def addLines? (d : Document) (table : Path) : List (List Token) → Option Document
  | [] => some d
  | l :: ls => do
    let (d, table) ← d.addLine? table l
    addLines? d table ls

/-- The characters behind a byte order mark, if one is at the start. -/
def dropMark : List Char → List Char
  | '\ufeff' :: cs => cs
  | cs => cs

def ofText? (s : String) : Option Document := do
  empty.addLines? [] (lines none (← scan .plain (dropMark s.toList)))

/-- What is found at a path. -/
inductive Slot where
  | nothing
  | table
  | value (v : Value)

def slot (p : Path) (d : Document) : Slot :=
  match d.entries.find? (·.path = p) with
  | some e => .value e.value
  | none =>
    if d.leadsToHeader p || d.entries.any (leadsTo p ·.path) then .table
    else .nothing

end Document

end ShardedSearch.Settings
