import RowQuery.Value

/-!
# Operators

A test of one field. Operators are leaves: a merge replaces one as a whole, and each language of
queries takes them apart for itself. `Operator.complement?` turns a negated comparison into the
comparison the other way.
-/

namespace RowQuery

inductive PatternKind where
  | startsWith
  | endsWith
  | contains
deriving DecidableEq, Repr

/-- A text that a field has to start with, end with or contain. -/
structure Pattern where
  kind : PatternKind
  text : String
  ignoreCase : Bool
deriving DecidableEq, Repr

inductive Operator where
  | equal (v : Value)
  | moreThan (v : Value)
  | moreThanOrEqual (v : Value)
  | lessThan (v : Value)
  | lessThanOrEqual (v : Value)
  /-- Inclusive at both ends. -/
  | between (low high : Value)
  | like (p : Pattern)
  | oneOf (vs : List Value)
  | isNull
  | arrayContains (v : Value)
  | arrayContainsAny (vs : List Value)
  | not (o : Operator)
deriving Repr, Inhabited

namespace Operator

/-- The name of an operator in messages. -/
def kind : Operator → String
  | equal _ => "equal"
  | moreThan _ => "moreThan"
  | moreThanOrEqual _ => "moreThanOrEqual"
  | lessThan _ => "lessThan"
  | lessThanOrEqual _ => "lessThanOrEqual"
  | between _ _ => "between"
  | like ⟨.startsWith, _, false⟩ => "startsWith"
  | like ⟨.endsWith, _, false⟩ => "endsWith"
  | like ⟨.contains, _, false⟩ => "contains"
  | like ⟨.startsWith, _, true⟩ => "iStartsWith"
  | like ⟨.endsWith, _, true⟩ => "iEndsWith"
  | like ⟨.contains, _, true⟩ => "iContains"
  | oneOf _ => "in"
  | isNull => "isNull"
  | arrayContains _ => "arrayContains"
  | arrayContainsAny _ => "arrayContainsAny"
  | not _ => "not"

/-- A negation without its `not`, where an operator says the same. Negated equality, membership
and null tests stay negations: the languages of queries have forms of their own for them. -/
def complement? : Operator → Option Operator
  | not (moreThan v) => some (lessThanOrEqual v)
  | not (moreThanOrEqual v) => some (lessThan v)
  | not (lessThan v) => some (moreThanOrEqual v)
  | not (lessThanOrEqual v) => some (moreThan v)
  | not (not o) => some o
  | _ => none

/-- The complement of an operator, the complement of that one, and so on. -/
def complements : Operator → List Operator
  | not (not o) => o :: complements o
  | o => o.complement?.toList

/-- Equality with floats taken at their numeric value. -/
def same : Operator → Operator → Bool
  | equal a, equal b => a.same b
  | moreThan a, moreThan b => a.same b
  | moreThanOrEqual a, moreThanOrEqual b => a.same b
  | lessThan a, lessThan b => a.same b
  | lessThanOrEqual a, lessThanOrEqual b => a.same b
  | between a b, between c d => a.same c && b.same d
  | like p, like q => p == q
  | oneOf as, oneOf bs => Value.sameItems as bs
  | isNull, isNull => true
  | arrayContains a, arrayContains b => a.same b
  | arrayContainsAny as, arrayContainsAny bs => Value.sameItems as bs
  | not a, not b => a.same b
  | _, _ => false

def notEqual (v : Value) : Operator := not (equal v)

def notMoreThan (v : Value) : Operator := not (moreThan v)

def notMoreThanOrEqual (v : Value) : Operator := not (moreThanOrEqual v)

def notLessThan (v : Value) : Operator := not (lessThan v)

def notLessThanOrEqual (v : Value) : Operator := not (lessThanOrEqual v)

def isNotNull : Operator := not isNull

end Operator

end RowQuery
