import ShardedSearch.Number.Scientific
import ShardedSearch.Settings.Token
import ShardedSearch.Text.Separator

/-! # Values of settings files

Strings, integers, numbers with a fraction or an exponent, flags, and arrays of values.
A value is read from all the tokens behind an equals sign.
-/

namespace ShardedSearch.Settings

inductive Value where
  | text (s : String)
  | integer (n : Int)
  /-- A number with a fraction or an exponent; no setting is one. -/
  | float
  | flag (b : Bool)
  | array (vs : List Value)

/-! ### Numbers -/

/-- Digits in groups with an underscore between each two. -/
def grouped? (cs : List Char) : Option (List Char) :=
  let groups := Text.pieces '_' cs
  if groups.any (·.isEmpty) then none else some groups.flatten

def digits? (base : Nat) (cs : List Char) : Option Nat := do
  (← grouped? cs).foldlM (fun n c => do
    let d ← hexValue? c
    if d < base then some (base * n + d) else none) 0

def decimal? (cs : List Char) : Option Nat :=
  match cs with
  | '0' :: _ :: _ => none
  | cs => digits? 10 cs

/-- A number without its sign, and whether it is negative. -/
def unsign : List Char → Bool × List Char
  | '-' :: cs => (true, cs)
  | '+' :: cs => (false, cs)
  | cs => (false, cs)

/-- Integers fit signed 64-bit words; hexadecimal, octal and binary ones have no sign. -/
def integer? (cs : List Char) : Option Int := do
  let n : Int ← match cs with
    | '0' :: 'x' :: cs => (digits? 16 cs).map Int.ofNat
    | '0' :: 'o' :: cs => (digits? 8 cs).map Int.ofNat
    | '0' :: 'b' :: cs => (digits? 2 cs).map Int.ofNat
    | cs =>
      let (negative, cs) := unsign cs
      (decimal? cs).map fun n => if negative then -(n : Int) else n
  if Int64.minValue.toInt ≤ n ∧ n ≤ Int64.maxValue.toInt then some n else none

def cutExponent (cs : List Char) : List Char × Option (List Char) :=
  match Text.cutFirst? 'e' (cs.map Char.toLower) with
  | some (front, exponent) => (front, some exponent)
  | none => (cs, none)

def cutPoint (cs : List Char) : List Char × Option (List Char) :=
  match Text.cutFirst? '.' cs with
  | some (whole, fraction) => (whole, some fraction)
  | none => (cs, none)

/-- The digits behind a point, appended to those before it. -/
def appendFraction? (whole : Nat) (fraction : List Char) : Option Number.Scientific := do
  let places := (← grouped? fraction).length
  some ⟨whole * Number.tenTo places + (← digits? 10 fraction), -(places : Int)⟩

def exponent? (cs : List Char) : Option Int :=
  let (negative, cs) := unsign cs
  (digits? 10 cs).map fun n => if negative then -(n : Int) else n

/-- The value of a number with a fraction, an exponent or both, without its sign. -/
def scientific? (cs : List Char) : Option Number.Scientific :=
  let (front, exponent) := cutExponent cs
  let (whole, fraction) := cutPoint front
  match fraction, exponent with
  | none, none => none
  | none, some e => do some ⟨← decimal? whole, ← exponent? e⟩
  | some f, none => do appendFraction? (← decimal? whole) f
  | some f, some e => do
    let x ← appendFraction? (← decimal? whole) f
    some { x with exponent := x.exponent + (← exponent? e) }

/-- Whether the text is a number with a fraction or an exponent, or the name of one that
is not finite. A positive one that is too great for a double is refused. -/
def isFloat (cs : List Char) : Bool :=
  let (negative, cs) := unsign cs
  cs = "inf".toList || cs = "nan".toList ||
    (scientific? cs).any fun x => negative || !x.overflows

def wordValue? (cs : List Char) : Option Value :=
  if cs = "true".toList then some (.flag true)
  else if cs = "false".toList then some (.flag false)
  else match integer? cs with
    | some n => some (.integer n)
    | none => if isFloat cs then some .float else none

/-! ### Values -/

mutual

/-- The value at the start of the tokens. Each step down uses up fuel, of which twice
the number of tokens is enough. -/
def value? : Nat → List Token → Option (Value × List Token)
  | 0, _ => none
  | n + 1, .opening :: ts => (items? n ts).map fun p => (.array p.1, p.2)
  | _, .text cs :: ts => some (.text (String.ofList cs), ts)
  | _, .word cs :: ts => (wordValue? cs).map (·, ts)
  | _, _ => none

/-- The items of an array up to its end; a comma may stand behind the last one. -/
def items? : Nat → List Token → Option (List Value × List Token)
  | 0, _ => none
  | _, .closing :: ts => some ([], ts)
  | n + 1, ts =>
    match value? n ts with
    | some (v, .comma :: ts) => (items? n ts).map fun p => (v :: p.1, p.2)
    | some (v, .closing :: ts) => some ([v], ts)
    | _ => none

end

mutual

/-- How many arrays are around the innermost value. -/
def Value.depth : Value → Nat
  | .array vs => deepest vs + 1
  | _ => 0

def deepest : List Value → Nat
  | [] => 0
  | v :: vs => max v.depth (deepest vs)

end

/-- Names in a key, and arrays around a value, are fewer than this. -/
def depthLimit : Nat := 80

def Value.ofTokens? (ts : List Token) : Option Value :=
  match value? (2 * ts.length + 1) ts with
  | some (v, []) => if v.depth < depthLimit then some v else none
  | _ => none

end ShardedSearch.Settings
