import RowQuery.Spec

/-!
# Directives

One step of a query as data. Filters add a condition, shaping steps change everything else about
the query, and joins and alternatives hold directives of their own.
-/

namespace RowQuery

/-- The comparisons with one value. -/
inductive Comparison where
  | gt | gte | lt | lte
  | notGt | notGte | notLt | notLte
deriving DecidableEq, Repr

namespace Comparison

def operator : Comparison → Value → Operator
  | gt => .moreThan
  | gte => .moreThanOrEqual
  | lt => .lessThan
  | lte => .lessThanOrEqual
  | notGt => .notMoreThan
  | notGte => .notMoreThanOrEqual
  | notLt => .notLessThan
  | notLte => .notLessThanOrEqual

def call : Comparison → Call
  | gt => .whereGt
  | gte => .whereGte
  | lt => .whereLt
  | lte => .whereLte
  | notGt => .whereNotGt
  | notGte => .whereNotGte
  | notLt => .whereNotLt
  | notLte => .whereNotLte

end Comparison

/-- A test of the field that a path leads to. -/
inductive Filter where
  | eq (v : Value)
  | ne (v : Value)
  | compare (c : Comparison) (v : Value)
  | between (low high : Value)
  | pattern (kind : PatternKind) (ignoreCase : Bool) (v : Value)
  | null
  | notNull
  | arrayContains (v : Value)
  | arrayContainsAny (vs : List Value)
deriving Repr

namespace Filter

def call : Filter → Call
  | eq _ => .whereEq
  | ne _ => .whereNe
  | compare c _ => c.call
  | between _ _ => .whereBetween
  | pattern .startsWith false _ => .whereStartsWith
  | pattern .endsWith false _ => .whereEndsWith
  | pattern .contains false _ => .whereContains
  | pattern .startsWith true _ => .whereIStartsWith
  | pattern .endsWith true _ => .whereIEndsWith
  | pattern .contains true _ => .whereIContains
  | null => .whereNull
  | notNull => .whereNotNull
  | arrayContains _ => .whereArrayContains
  | arrayContainsAny _ => .whereArrayContainsAny

/-- The condition a filter adds. Equality with null is the null test; elsewhere a null leaves the
test, or its side of a range, out. -/
def condition? (f : Filter) : Except QueryError (Option Condition) :=
  match f with
  | eq v => .ok <| some <| if v.isNull then .op .isNull else .value v
  | ne v => .ok <| some <| .op <| if v.isNull then .isNotNull else .notEqual v
  | compare c v => .ok <| if v.isNull then none else some (.op (c.operator v))
  | between low high => .ok <| match low.isNull, high.isNull with
    | true, true => none
    | false, true => some (.op (.moreThanOrEqual low))
    | true, false => some (.op (.lessThanOrEqual high))
    | false, false => some (.op (.between low high))
  | pattern kind ignoreCase v =>
    if v.isNull then .ok none
    else match v.text? with
      | some text => .ok (some (.op (.like ⟨kind, text, ignoreCase⟩)))
      | none => .error (.invalidValue (.notScalar f.call v))
  | null => .ok (some (.op .isNull))
  | notNull => .ok (some (.op .isNotNull))
  | arrayContains v => .ok <| if v.isNull then none else some (.op (.arrayContains v))
  | arrayContainsAny vs => .ok (some (.op (.arrayContainsAny vs)))

end Filter

/-- A change of anything but the conditions. -/
inductive Shaping where
  | sort (direction : Direction) (field : String)
  | select (field : String)
  | fetchRelation (hops : List String)
  | loadRelationIds
  | cache (policy : CachePolicy)
  | next (token : String)
  | limit (n : UInt64)
deriving Repr

inductive Directive where
  | filter (path : String) (f : Filter)
  /-- The field has one of the values. This closes the chain of conditions. -/
  | oneOf (path : String) (vs : List Value)
  /-- Conditions on a related entity. -/
  | join (relation : String) (directives : List Directive)
  /-- Alternatives, each of which goes on from the conditions so far. This closes the chain. -/
  | or (branches : List (List Directive))
  | shape (s : Shaping)
deriving Repr

/-- The steps that a request for a page stands for. -/
def PageRequest.shapings (r : PageRequest) : List Shaping :=
  (r.next.map .next).toList ++ (r.limit.map .limit).toList

end RowQuery
