import RowQuery.Spec

/-!
# Document queries

What a store of JSON documents can be asked: tests of single fields joined by "and" and "or", sort
keys, the fields to keep, and a window of the rows.
-/

namespace RowQuery.Document

inductive FieldOp where
  | equal | notEqual
  | lessThan | lessThanOrEqual | greaterThan | greaterThanOrEqual
  | arrayContains | arrayContainsAny
  | oneOf | notOneOf
  | isNull | isNotNull
deriving DecidableEq, Repr

inductive Filter where
  | field (name : String) (op : FieldOp) (operand : Json)
  | and (filters : List Filter)
  | or (filters : List Filter)
deriving Repr, Inhabited

/-- The conjunction of filters; a single one stands for itself. -/
def Filter.all : List Filter → Filter
  | [f] => f
  | fs => and fs

structure Query where
  collection : String
  filter : Option Filter
  order : List OrderBy
  /-- The fields to keep; with none the documents are kept whole. -/
  select : List String
  offset : Option UInt64
  limit : Option UInt64
  /-- How long the rows may be served again. -/
  cache : Option Duration
deriving Repr

namespace FieldOp

def name : FieldOp → String
  | equal => "EQUAL"
  | notEqual => "NOT_EQUAL"
  | lessThan => "LESS_THAN"
  | lessThanOrEqual => "LESS_THAN_OR_EQUAL"
  | greaterThan => "GREATER_THAN"
  | greaterThanOrEqual => "GREATER_THAN_OR_EQUAL"
  | arrayContains => "ARRAY_CONTAINS"
  | arrayContainsAny => "ARRAY_CONTAINS_ANY"
  | oneOf => "IN"
  | notOneOf => "NOT_IN"
  | isNull => "IS_NULL"
  | isNotNull => "IS_NOT_NULL"

def ofName? : String → Option FieldOp
  | "EQUAL" => some equal
  | "NOT_EQUAL" => some notEqual
  | "LESS_THAN" => some lessThan
  | "LESS_THAN_OR_EQUAL" => some lessThanOrEqual
  | "GREATER_THAN" => some greaterThan
  | "GREATER_THAN_OR_EQUAL" => some greaterThanOrEqual
  | "ARRAY_CONTAINS" => some arrayContains
  | "ARRAY_CONTAINS_ANY" => some arrayContainsAny
  | "IN" => some oneOf
  | "NOT_IN" => some notOneOf
  | "IS_NULL" => some isNull
  | "IS_NOT_NULL" => some isNotNull
  | _ => none

theorem ofName?_name (op : FieldOp) : ofName? op.name = some op := by cases op <;> rfl

end FieldOp

end RowQuery.Document
