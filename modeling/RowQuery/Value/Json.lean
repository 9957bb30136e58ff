import RowQuery.Json.Source
import RowQuery.Value.Text

/-!
# Values as JSON

A value is written with timestamps marked either by `Z`, when it is serialized, or by an offset, in
documents. A float that is not finite has no number and is written as null. Reading tells values
apart by their JSON sort alone, so UUIDs and timestamps are read as strings.
-/

namespace RowQuery.Value

mutual

/-- A value in JSON with the given mark of the zone in timestamps. -/
def encode (zone : String) : Value → Json
  | .null => .null
  | .bool b => .bool b
  | .int n => .ofInt64 n
  | .float x => .ofDouble x
  | .string s => .str s
  | .list items => .arr (encodeItems zone items)
  | .uuid u => .str u.text
  | .timestamp t => .str (t.text zone)

def encodeItems (zone : String) : List Value → List Json
  | [] => []
  | v :: vs => v.encode zone :: encodeItems zone vs

end

/-- A value as it stands in a document. -/
def toJson : Value → Json := encode offset

/-- A value as a specification or a statement is serialized. -/
def serialize : Value → Json := encode "Z"

mutual

/-- The value of a document without objects. A whole number past the signed range is a float. -/
def ofJson? : Json → Option Value
  | .null => some .null
  | .bool b => some (.bool b)
  | .num (.int n _) => some (if n < 0x8000000000000000 then .int (.ofInt n) else .float (.ofInt n))
  | .num (.float x _) => some (.float x)
  | .str s => some (.string s)
  | .arr items => (ofJsonItems? items).map .list
  | .obj _ => none

def ofJsonItems? : List Json → Option (List Value)
  | [] => some []
  | j :: js => do return (← ofJson? j) :: (← ofJsonItems? js)

end

def ofSource? (depth : Nat) (j : Source) : Option Value := (j.json? depth).bind ofJson?

/-- Reads a value from text. -/
def parse? (s : String) : Option Value := (Source.readText? s).bind (ofSource? Source.maxDepth)

/-- The number of a float or of a whole number. -/
def float? : Value → Option Double
  | .float x => some x
  | .int n => some (.ofInt n.toInt)
  | _ => none

end RowQuery.Value
