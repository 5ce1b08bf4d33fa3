import ShardedSearch.Query.Basic

/-! # Queries as text

The written form of a query. Values stand in single quotes, with a backslash in
front of quotes and backslashes; fields are written as they are. The text of an
equality is also the key of its term in bitmap entries and counts.
-/

namespace ShardedSearch

def Marker.label : Marker → String
  | .boundedRange => "_Bounded_"
  | .delayed => "_Delayed_"
  | .evaluationOnly => "_Eval_"
  | .exceededValue => "_Value_"
  | .exceededOr => "_List_"
  | .exceededTerm => "_Term_"
  | .dropped => "_Drop_"
  | .indexHole => "_Hole_"

def Comparison.symbol : Comparison → String
  | .lt => "<"
  | .le => "<="
  | .gt => ">"
  | .ge => ">="
  | .ne => "!="

namespace Query

def escapeQuoted (c : Char) : List Char := if c = '\'' ∨ c = '\\' then ['\\', c] else [c]

def quoted (s : String) : List Char := '\'' :: (s.toList.flatMap escapeQuoted ++ ['\''])

def quotedOrNull : Option String → List Char
  | some s => quoted s
  | none => "null".toList

def condition (field op : String) (value : List Char) : List Char :=
  field.toList ++ ' ' :: op.toList ++ ' ' :: value

def parens (cs : List Char) : List Char := '(' :: (cs ++ [')'])

/-- Whether the text of a node has parentheses of its own inside a marked conjunction. -/
def isGroup : Query → Bool
  | and _ | or _ | marked .. | range .. => Bool.true
  | _ => Bool.false

/-- Whether the text of a node has parentheses of its own after a negation. -/
def isJoin : Query → Bool
  | and _ | or _ | marked .. => Bool.true
  | _ => Bool.false

mutual

/-- The text of a query in front of other text. -/
def write : Query → List Char → List Char
  | equality field literal, rest => condition field "==" (quotedOrNull literal) ++ rest
  | range field lower upper li ui, rest =>
    parens (condition field (if li then ">=" else ">") (quoted lower) ++ " && ".toList ++
      condition field (if ui then "<=" else "<") (quoted upper)) ++ rest
  | compare field op literal, rest => condition field op.symbol (quotedOrNull literal) ++ rest
  | regex field pattern, rest => condition field "=~" (quotedOrNull pattern) ++ rest
  | function name args, rest => name.toList ++ parens (", ".intercalate args).toList ++ rest
  | assignment name value, rest => parens (condition name "=" (quoted value)) ++ rest
  | and cs, rest => '(' :: writeAll " && " cs (')' :: rest)
  | or cs, rest => '(' :: writeAll " || " cs (')' :: rest)
  | marked m cs, rest =>
    '(' :: parens (m.label.toList ++ " = true".toList) ++ " && ".toList ++
      match cs with
      | [c] => if c.isGroup then write c (')' :: rest) else '(' :: write c (')' :: ')' :: rest)
      | cs => '(' :: writeAll " && " cs (')' :: ')' :: rest)
  | not c, rest => '!' :: if c.isJoin then write c rest else '(' :: write c (')' :: rest)
  | true, rest => "true".toList ++ rest
  | false, rest => "false".toList ++ rest

def writeAll (op : String) : List Query → List Char → List Char
  | [], rest => rest
  | [c], rest => write c rest
  | c :: cs, rest => write c (op.toList ++ writeAll op cs rest)

end

def text (q : Query) : String := String.ofList (q.write [])

mutual

/-- The text of a query does not depend on what follows it. -/
theorem write_append : ∀ (q : Query) (a b : List Char), q.write (a ++ b) = q.write a ++ b
  | equality .., a, b => by simp [write]
  | range .., a, b => by simp [write]
  | compare .., a, b => by simp [write]
  | regex .., a, b => by simp [write]
  | function .., a, b => by simp [write]
  | assignment .., a, b => by simp [write]
  | and cs, a, b => by simp [write, ← writeAll_append cs]
  | or cs, a, b => by simp [write, ← writeAll_append cs]
  | marked m cs, a, b => by
    match cs with
    | [] => simp [write, writeAll]
    | [c] =>
      simp only [write]
      split <;> simp [← write_append c]
    | c :: d :: cs => simp [write, ← writeAll_append (c :: d :: cs)]
  | not c, a, b => by
    simp only [write]
    split <;> simp [← write_append c]
  | true, a, b => by simp [write]
  | false, a, b => by simp [write]

theorem writeAll_append : ∀ (cs : List Query) (op : String) (a b : List Char),
    writeAll op cs (a ++ b) = writeAll op cs a ++ b
  | [], _, a, b => rfl
  | [c], _, a, b => write_append c a b
  | c :: d :: cs, op, a, b => by
    simp [writeAll, ← write_append c, ← writeAll_append (d :: cs)]

end

end Query

end ShardedSearch
