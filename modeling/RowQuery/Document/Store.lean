import RowQuery.Document.Filter

/-!
# Document stores

A store keeps JSON documents in collections, in the order they came. A query is answered by the
documents that satisfy its filter, sorted, cut to the window and reduced to the selected fields.

Values are compared within one sort only, numbers by their binary64 value. A filter holds or fails:
a comparison that cannot be made fails.
-/

namespace RowQuery.Document

/-- What a document has under a name; a missing field is null. -/
def fieldOf (doc : Json) (name : String) : Json := (doc.member? name).getD .null

/-! ### Comparison -/

/-- Equality of values, with all numbers taken as binary64. -/
def equalValues : Json → Json → Bool
  | .num m, .num n => m.toDouble.numEq n.toDouble
  | a, b => a.same b

/-- The order of two numbers, two strings or two truth values. -/
def compareWithin? : Json → Json → Option Ordering
  | .num m, .num n => m.toDouble.compare? n.toDouble
  | .str s, .str t => some (compare s t)
  | .bool a, .bool b => some (compare a b)
  | _, _ => none

/-- The place of a value among those of other sorts. -/
def rank : Json → Nat
  | .null => 0
  | .bool _ => 1
  | .num _ => 2
  | .str _ => 3
  | .arr _ => 4
  | .obj _ => 5

/-- The order of all values. -/
def compareValues (a b : Json) : Ordering := (compareWithin? a b).getD (compare (rank a) (rank b))

/-! ### Filters -/

/-- Whether a field's value passes a test. Negative tests want a value to be there. -/
def FieldOp.holds (op : FieldOp) (value operand : Json) : Bool :=
  let candidates := operand.items?.getD []
  match op with
  | equal => equalValues value operand
  | notEqual => !value.isNull && !equalValues value operand
  | lessThan => compareWithin? value operand == some .lt
  | lessThanOrEqual => (compareWithin? value operand).any Ordering.isLE
  | greaterThan => compareWithin? value operand == some .gt
  | greaterThanOrEqual => (compareWithin? value operand).any Ordering.isGE
  | arrayContains => (value.items?.getD []).any (equalValues · operand)
  | arrayContainsAny => candidates.any fun c => (value.items?.getD []).any (equalValues · c)
  | oneOf => candidates.any (equalValues value)
  | notOneOf => !value.isNull && !candidates.any (equalValues value)
  | isNull => value.isNull
  | isNotNull => !value.isNull

mutual

def Filter.holds (doc : Json) : Filter → Bool
  | .field name op operand => op.holds (fieldOf doc name) operand
  | .and filters => Filter.allHold doc filters
  | .or filters => Filter.someHolds doc filters

def Filter.allHold (doc : Json) : List Filter → Bool
  | [] => true
  | f :: fs => f.holds doc && Filter.allHold doc fs

def Filter.someHolds (doc : Json) : List Filter → Bool
  | [] => false
  | f :: fs => f.holds doc || Filter.someHolds doc fs

end

theorem Filter.allHold_eq_all (doc : Json) (fs : List Filter) :
    Filter.allHold doc fs = fs.all (Filter.holds doc) := by
  induction fs with
  | nil => rfl
  | cons f fs ih => simp [Filter.allHold, ih]

theorem Filter.someHolds_eq_any (doc : Json) (fs : List Filter) :
    Filter.someHolds doc fs = fs.any (Filter.holds doc) := by
  induction fs with
  | nil => rfl
  | cons f fs ih => simp [Filter.someHolds, ih]

@[simp] theorem Filter.holds_and (doc : Json) (fs : List Filter) :
    (Filter.and fs).holds doc = fs.all (Filter.holds doc) := by
  simp [Filter.holds, Filter.allHold_eq_all]

@[simp] theorem Filter.holds_or (doc : Json) (fs : List Filter) :
    (Filter.or fs).holds doc = fs.any (Filter.holds doc) := by
  simp [Filter.holds, Filter.someHolds_eq_any]

/-- The conjunction of filters holds if each does, however it is written. -/
theorem Filter.holds_all (doc : Json) (fs : List Filter) :
    (Filter.all fs).holds doc = fs.all (Filter.holds doc) := by
  unfold Filter.all
  split <;> simp

/-! ### Order and selection -/

/-- The order of two documents by sort keys, the first of which that tells them apart decides. -/
def compareBy : List OrderBy → Json → Json → Ordering
  | [], _, _ => .eq
  | o :: os, a, b =>
    let c := compareValues (fieldOf a o.field) (fieldOf b o.field)
    let c := match o.direction with
      | .asc => c
      | .desc => c.swap
    c.then (compareBy os a b)

/-- The selected fields that a document has; it is kept whole if none are selected. -/
def project (select : List String) (doc : Json) : Json :=
  if select.isEmpty then doc
  else .mkObj (select.filterMap fun name => (doc.member? name).map (name, ·))

namespace Query

variable (q : Query)

def isMet (doc : Json) : Bool := q.filter.all (Filter.holds doc)

/-- The documents that a query is about, in its order. Documents that no sort key tells apart keep
the order they came in. -/
def matching (docs : List Json) : List Json :=
  (docs.filter q.isMet).mergeSort fun a b => (compareBy q.order a b).isLE

def window {α : Type} (rows : List α) : List α :=
  let rows := rows.drop ((q.offset.getD 0).toNat)
  match q.limit with
  | none => rows
  | some n => rows.take n.toNat

def answer (docs : List Json) : List Json := (q.window (q.matching docs)).map (project q.select)

end Query

/-! ### Stores -/

structure Store where
  collections : List (String × List Json)

namespace Store

def empty : Store := ⟨[]⟩

variable (s : Store)

/-- The documents of a collection; one that nothing was put into has none. -/
def documents (collection : String) : List Json :=
  (Keyed.find? collection s.collections).getD []

def insert (collection : String) (doc : Json) : Store :=
  ⟨Keyed.insert collection (s.documents collection ++ [doc]) s.collections⟩

def insertMany (collection : String) (docs : List Json) : Store :=
  docs.foldl (fun s doc => s.insert collection doc) s

def rows (q : Query) : List Json := q.answer (s.documents q.collection)

@[simp] theorem documents_insert_self (collection : String) (doc : Json) :
    (s.insert collection doc).documents collection = s.documents collection ++ [doc] := by
  simp [insert, documents]

theorem documents_insert_of_ne {collection other : String} (h : other ≠ collection) (doc : Json) :
    (s.insert collection doc).documents other = s.documents other := by
  simp [insert, documents, Keyed.find?_insert_of_ne _ h]

end Store

end RowQuery.Document
