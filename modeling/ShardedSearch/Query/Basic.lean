import ShardedSearch.Order.Set

/-! # Queries

Query trees as the planner receives them: conditions on fields, joined by
conjunction, disjunction and negation. A marked conjunction means what its
children mean, but tells how they resolve against the index.
-/

namespace ShardedSearch

/-- How a marked conjunction resolves against the index. -/
inductive Marker where
  | boundedRange
  | delayed
  | evaluationOnly
  | exceededValue
  | exceededOr
  | exceededTerm
  | dropped
  | indexHole
deriving DecidableEq

inductive Comparison where
  | lt
  | le
  | gt
  | ge
  | ne
deriving DecidableEq

inductive Query where
  | equality (field : String) (literal : Option String)
  | range (field lower upper : String) (lowerInclusive upperInclusive : Bool)
  | compare (field : String) (op : Comparison) (literal : Option String)
  | regex (field : String) (pattern : Option String)
  | function (name : String) (args : List String)
  | assignment (name value : String)
  | and (children : List Query)
  | or (children : List Query)
  | marked (marker : Marker) (children : List Query)
  | not (child : Query)
  | true
  | false

namespace Query

instance : Inhabited Query := ⟨.true⟩

/-! ### Equality of trees -/

mutual

def same : Query → Query → Bool
  | equality f l, equality f' l' => f = f' && l = l'
  | range f l u li ui, range f' l' u' li' ui' =>
    f = f' && l = l' && u = u' && li = li' && ui = ui'
  | compare f o l, compare f' o' l' => f = f' && o = o' && l = l'
  | regex f p, regex f' p' => f = f' && p = p'
  | function n as, function n' as' => n = n' && as = as'
  | assignment n v, assignment n' v' => n = n' && v = v'
  | and cs, and cs' => sameAll cs cs'
  | or cs, or cs' => sameAll cs cs'
  | marked m cs, marked m' cs' => m = m' && sameAll cs cs'
  | not c, not c' => same c c'
  | true, true => Bool.true
  | false, false => Bool.true
  | _, _ => Bool.false

def sameAll : List Query → List Query → Bool
  | [], [] => Bool.true
  | c :: cs, c' :: cs' => same c c' && sameAll cs cs'
  | _, _ => Bool.false

end

mutual

theorem same_iff : ∀ {p q : Query}, same p q = Bool.true ↔ p = q
  | equality .., q => by cases q <;> simp [same]
  | range .., q => by cases q <;> simp [same, and_assoc]
  | compare .., q => by cases q <;> simp [same, and_assoc]
  | regex .., q => by cases q <;> simp [same]
  | function .., q => by cases q <;> simp [same]
  | assignment .., q => by cases q <;> simp [same]
  | and cs, q => by cases q <;> simp [same, sameAll_iff]
  | or cs, q => by cases q <;> simp [same, sameAll_iff]
  | marked m cs, q => by cases q <;> simp [same, sameAll_iff]
  | not c, q => by cases q <;> simp [same, same_iff]
  | true, q => by cases q <;> simp [same]
  | false, q => by cases q <;> simp [same]

theorem sameAll_iff : ∀ {ps qs : List Query}, sameAll ps qs = Bool.true ↔ ps = qs
  | [], [] => by simp [sameAll]
  | [], _ :: _ => by simp [sameAll]
  | _ :: _, [] => by simp [sameAll]
  | p :: ps, q :: qs => by simp [sameAll, same_iff, sameAll_iff]

end

instance : DecidableEq Query := fun _ _ => decidable_of_iff _ same_iff

/-! ### Fields -/

def anyField : String := "_ANYFIELD_"

def noField : String := "_NOFIELD_"

/-- Holds the datatype of a record; never looked up in the index. -/
def datatypeField : String := "EVENT_DATATYPE"

/-- Assignment to this name pins a query to listed shards and days. -/
def hintName : String := "SHARDS_AND_DAYS"

def isUnfielded (field : String) : Bool := field = anyField || field = noField

def equals (field value : String) : Query := equality field (some value)

def between (field lower upper : String) : Query := range field lower upper Bool.true Bool.true

def hint (value : String) : Query := assignment hintName value

def marker? : Query → Option Marker
  | marked m _ => some m
  | _ => none

def isMarked (q : Query) : Bool := q.marker?.isSome

def field? : Query → Option String
  | equality field _ => some field
  | range field .. => some field
  | compare field .. => some field
  | regex field _ => some field
  | _ => none

def children : Query → List Query
  | and cs => cs
  | or cs => cs
  | marked _ cs => cs
  | not c => [c]
  | _ => []

mutual

def fieldList : Query → List String
  | and cs => fieldListAll cs
  | or cs => fieldListAll cs
  | marked _ cs => fieldListAll cs
  | not c => fieldList c
  | q => q.field?.toList

def fieldListAll : List Query → List String
  | [] => []
  | c :: cs => fieldList c ++ fieldListAll cs

end

def fields (q : Query) : SortedSet String := .ofList q.fieldList

mutual

def size : Query → Nat
  | and cs => 1 + sizeAll cs
  | or cs => 1 + sizeAll cs
  | marked _ cs => 1 + sizeAll cs
  | not c => 1 + size c
  | _ => 1

def sizeAll : List Query → Nat
  | [] => 0
  | c :: cs => size c + sizeAll cs

end

theorem sizeAll_append (cs ds : List Query) : sizeAll (cs ++ ds) = sizeAll cs + sizeAll ds := by
  induction cs with
  | nil => simp [sizeAll]
  | cons c cs ih => simp [sizeAll, ih, Nat.add_assoc]

theorem size_eq_children (q : Query) : q.size = 1 + sizeAll q.children := by
  cases q <;> simp [size, children, sizeAll]

end Query

end ShardedSearch
