import RowQuery.Operator
import RowQuery.Value.Json

/-!
# Operators as JSON

An operator is an object with its kind and, except for the null test, a value, or the two in an
array. Other members are passed over. When the value comes before the kind it has to be read before
its meaning is known, so then all of it must have a value; such a part is called buffered. An object
gives the kind as a choice, an array gives it as a plain name.
-/

namespace RowQuery

namespace PatternKind

def name : PatternKind → String
  | startsWith => "prefix"
  | endsWith => "suffix"
  | contains => "contains"

def ofName? : String → Option PatternKind
  | "prefix" => some startsWith
  | "suffix" => some endsWith
  | "contains" => some contains
  | _ => none

end PatternKind

namespace Source

/-- The name of a choice: a string, or an object whose one member has nothing in it. Nothing is
null, and in a buffered part also an object without members. -/
def choice? (buffered : Bool) (depth : Nat) : Source → Option String
  | .str us => StringUnit.text? us
  | .obj [(us, .null)] => if 0 < depth then StringUnit.text? us else none
  | .obj [(us, .obj [])] => if buffered && 1 < depth then StringUnit.text? us else none
  | _ => none

/-- A plain name. In a buffered part it may also be given by its place among the names. -/
def nameAmong? (names : List String) (buffered : Bool) : Source → Option String
  | .str us => StringUnit.text? us
  | j => if buffered then (j.below? names.length).bind (names[·]?) else none

/-- The values of an array. -/
def values? : Nat → Source → Option (List Value)
  | depth + 1, .arr items => items.mapM (Value.ofSource? depth)
  | _, _ => none

end Source

namespace Pattern

def toJson (p : Pattern) : Json :=
  .mkObj [("kind", .str p.kind.name), ("text", .str p.text),
    ("case_insensitive", .bool p.ignoreCase)]

/-- The three members of a pattern, by name or in order. -/
def ofSource? (buffered : Bool) : Nat → Source → Option Pattern
  | depth + 1, .arr [kind, text, ignoreCase] => make depth kind text ignoreCase
  | depth + 1, .obj ms => do
    let fields ← (Source.obj ms).fields?
    make depth (← Source.required? "kind" fields) (← Source.required? "text" fields)
      (← Source.required? "case_insensitive" fields)
  | _, _ => none
where
  make (depth : Nat) (kind text ignoreCase : Source) : Option Pattern := do
    return ⟨← PatternKind.ofName? (← kind.choice? buffered depth), ← text.string?,
      ← ignoreCase.bool?⟩

end Pattern

namespace Operator

/-- The kind that stands in the JSON form of an operator. -/
def tag : Operator → String
  | like _ => "like"
  | o => o.kind

/-- What stands beside the tag of an operator that is no negation. -/
def payload? : Operator → Option Json
  | equal v | moreThan v | moreThanOrEqual v | lessThan v | lessThanOrEqual v
  | arrayContains v => some v.serialize
  | between low high => some (.arr [low.serialize, high.serialize])
  | like p => some p.toJson
  | oneOf vs | arrayContainsAny vs => some (.arr (vs.map Value.serialize))
  | isNull | not _ => none

def tagged (tag : String) (payload : Option Json) : Json :=
  .mkObj (("kind", .str tag) :: (payload.map (("value", ·))).toList)

def toJson : Operator → Json
  | not o => tagged "not" (some o.toJson)
  | o => tagged o.tag o.payload?

/-- The tags, in the order by which an array in a buffered part may number them. -/
def tags : List String :=
  ["equal", "moreThan", "moreThanOrEqual", "lessThan", "lessThanOrEqual", "between", "like", "in",
    "isNull", "arrayContains", "arrayContainsAny", "not"]

/-- The operator of a tag and a value that is no operator itself. -/
def ofPayload? (buffered : Bool) (depth : Nat) (j : Source) : String → Option Operator
  | "equal" => (Value.ofSource? depth j).map equal
  | "moreThan" => (Value.ofSource? depth j).map moreThan
  | "moreThanOrEqual" => (Value.ofSource? depth j).map moreThanOrEqual
  | "lessThan" => (Value.ofSource? depth j).map lessThan
  | "lessThanOrEqual" => (Value.ofSource? depth j).map lessThanOrEqual
  | "between" => match j.values? depth with
    | some [low, high] => some (between low high)
    | _ => none
  | "like" => (Pattern.ofSource? buffered depth j).map like
  | "in" => (j.values? depth).map oneOf
  | "isNull" => match j with
    | .null => some isNull
    | _ => none
  | "arrayContains" => (Value.ofSource? depth j).map arrayContains
  | "arrayContainsAny" => (j.values? depth).map arrayContainsAny
  | _ => none

/-- Reads an operator at most `depth` deep. -/
def ofSource? (buffered : Bool) : Nat → Source → Option Operator
  | 0, _ => none
  | depth + 1, .arr [kind, value] => do
    read buffered (ofSource? buffered depth) depth (← kind.nameAmong? tags buffered) value
  | depth + 1, .obj ms => do
    let fields ← (Source.obj ms).fields?
    let kind ← Source.required? "kind" fields
    let tag ← kind.choice? buffered depth
    match ← Source.unique? "value" fields with
    | none => if tag = "isNull" then some isNull else none
    | some value =>
      let first := (fields.find? fun f => f.1 == "kind" || f.1 == "value").map (·.1)
      if first = some "value" then
        if value.isReadable depth then read true (ofSource? true depth) depth tag value else none
      else read buffered (ofSource? buffered depth) depth tag value
  | _ + 1, _ => none
where
  read (buffered : Bool) (inner : Source → Option Operator) (depth : Nat) (tag : String)
      (value : Source) : Option Operator :=
    if tag = "not" then (inner value).map not else ofPayload? buffered depth value tag

/-- Reads an operator from text. -/
def parse? (s : String) : Option Operator :=
  (Source.readText? s).bind (ofSource? false Source.maxDepth)

end Operator

end RowQuery
