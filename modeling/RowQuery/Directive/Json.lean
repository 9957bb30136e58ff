import RowQuery.Directive

/-!
# Directives as JSON

A directive is an object with its name under `op`, or an array that begins with its name and goes on
with its arguments in order. Other members are passed over. A text of directives is read as a whole
before any of it is understood, so every part of it must have a value.
-/

namespace RowQuery

/-- A value that may be absent, which then is null. -/
def Source.valueOrNull? : Option Source → Option Value
  | none => some .null
  | some j => Value.ofSource? maxDepth j

namespace Directive

/-- The names of the directives, in the order by which one inside another may be numbered. -/
def names : List String :=
  ["eq", "ne", "gt", "gte", "lt", "lte", "not_gt", "not_gte", "not_lt", "not_lte", "between",
    "starts_with", "ends_with", "contains", "istarts_with", "iends_with", "icontains", "null",
    "not_null", "array_contains", "array_contains_any", "in", "join", "or", "sort_asc",
    "sort_desc", "select", "fetch_relation", "load_relation_ids", "cache", "next", "limit"]

/-- The names of the arguments, in order. -/
def arguments : String → List String
  | "between" => ["path", "from", "to"]
  | "null" | "not_null" => ["path"]
  | "array_contains_any" | "in" => ["path", "values"]
  | "join" => ["relation", "directives"]
  | "or" => ["branches"]
  | "sort_asc" | "sort_desc" | "select" => ["field"]
  | "fetch_relation" => ["hops"]
  | "load_relation_ids" => []
  | "cache" => ["cache"]
  | "next" => ["token"]
  | "limit" => ["limit"]
  | _ => ["path", "value"]

/-- The name of a directive and its arguments by name. -/
def parts? (inside : Bool) : Source → Option (String × List (String × Source))
  | .obj ms => do
    let fields ← (Source.obj ms).fields?
    return (← (← Source.required? "op" fields).nameAmong? names inside, fields)
  | .arr (op :: items) => do
    let name ← op.nameAmong? names inside
    if items.length ≤ (arguments name).length then some (name, (arguments name).zip items)
    else none
  | _ => none

/-- A filter that compares with one value, by its name. -/
def valueFilter? : String → Option (Value → Filter)
  | "eq" => some .eq
  | "ne" => some .ne
  | "gt" => some (.compare .gt)
  | "gte" => some (.compare .gte)
  | "lt" => some (.compare .lt)
  | "lte" => some (.compare .lte)
  | "not_gt" => some (.compare .notGt)
  | "not_gte" => some (.compare .notGte)
  | "not_lt" => some (.compare .notLt)
  | "not_lte" => some (.compare .notLte)
  | "starts_with" => some (.pattern .startsWith false)
  | "ends_with" => some (.pattern .endsWith false)
  | "contains" => some (.pattern .contains false)
  | "istarts_with" => some (.pattern .startsWith true)
  | "iends_with" => some (.pattern .endsWith true)
  | "icontains" => some (.pattern .contains true)
  | "array_contains" => some .arrayContains
  | _ => none

/-- The directive of a name with these arguments; `inner` reads the directives inside it. -/
def ofParts? (inner : Source → Option Directive) (name : String)
    (fields : List (String × Source)) : Option Directive := do
  let text (argument : String) : Option String :=
    (Source.required? argument fields).bind Source.string?
  let value (argument : String) : Option Value :=
    (Source.unique? argument fields).bind Source.valueOrNull?
  let values : Option (List Value) :=
    (Source.required? "values" fields).bind (Source.values? Source.maxDepth)
  match name with
  | "between" => return .filter (← text "path") (.between (← value "from") (← value "to"))
  | "null" => return .filter (← text "path") .null
  | "not_null" => return .filter (← text "path") .notNull
  | "array_contains_any" => return .filter (← text "path") (.arrayContainsAny (← values))
  | "in" => return .oneOf (← text "path") (← values)
  | "join" =>
    let relation ← text "relation"
    match ← Source.unique? "directives" fields with
    | none => return .join relation []
    | some ds => return .join relation (← (← ds.items?).mapM inner)
  | "or" =>
    let branches ← (← Source.required? "branches" fields).items?
    return .or (← branches.mapM fun ds => do (← ds.items?).mapM inner)
  | "sort_asc" => return .shape (.sort .asc (← text "field"))
  | "sort_desc" => return .shape (.sort .desc (← text "field"))
  | "select" => return .shape (.select (← text "field"))
  | "fetch_relation" =>
    let hops ← (← Source.required? "hops" fields).items?
    return .shape (.fetchRelation (← hops.mapM Source.string?))
  | "load_relation_ids" => return .shape .loadRelationIds
  | "cache" =>
    match ← Source.unique? "cache" fields with
    | none => return .shape (.cache .standard)
    | some policy => return .shape (.cache (← CachePolicy.ofSource? true policy))
  | "next" => return .shape (.next (← text "token"))
  | "limit" => return .shape (.limit (← (← Source.required? "limit" fields).uint64?))
  | name => return .filter (← text "path") ((← valueFilter? name) (← value "value"))

/-- Reads one directive. The number bounds how deep directives stand inside directives. -/
def ofSource? (inside : Bool) : Nat → Source → Option Directive
  | 0, _ => none
  | depth + 1, j => do
    let (name, fields) ← parts? inside j
    ofParts? (ofSource? true depth) name fields

/-- Reads one directive from a document. -/
def ofJson? (j : Json) : Option Directive := ofSource? false Source.maxDepth (Source.ofJson j)

/-- Reads a list of directives from text. -/
def parseAll (s : String) : Except QueryError (List Directive) :=
  let directives? := do
    let j ← Source.readText? s
    if j.isReadable Source.maxDepth then (← j.items?).mapM (ofSource? false Source.maxDepth)
    else none
  match directives? with
  | some ds => .ok ds
  | none => .error (.invalidValue .malformed)

end Directive

end RowQuery
