import RowQuery.Double.Decimal
import RowQuery.Text.Quoted
import RowQuery.Value

/-!
# Text of values

`Value.text?` is the text that a scalar lends to a pattern. `Value.describe` shows a value together
with its sort, for messages.
-/

namespace RowQuery.Value

/-- The mark of UTC in the text of a value and in documents. -/
def offset : String := "+00:00"

/-- The text of a scalar; null and lists have none. -/
def text? : Value → Option String
  | .string s => some s
  | .int n => some (toString n.toInt)
  | .float x => some (x.text .plain)
  | .bool b => some (if b then "true" else "false")
  | .uuid u => some u.text
  | .timestamp t => some (t.text offset)
  | .null | .list _ => none

mutual

def describe : Value → String
  | .null => "Null"
  | .bool b => "Bool(" ++ (if b then "true" else "false") ++ ")"
  | .int n => "Int(" ++ toString n.toInt ++ ")"
  | .float x => "Float(" ++ x.text .exact ++ ")"
  | .string s => "String(" ++ Text.quoted s ++ ")"
  | .list items => "List([" ++ ", ".intercalate (describeItems items) ++ "])"
  | .uuid u => "Uuid(" ++ u.text ++ ")"
  | .timestamp t => "Timestamp(" ++ t.text "Z" ++ ")"

def describeItems : List Value → List String
  | [] => []
  | v :: vs => v.describe :: describeItems vs

end

end RowQuery.Value
