import RowQuery.Double
import RowQuery.Timestamp
import RowQuery.Uuid

/-!
# Values

What a condition compares a field with. `Value.same` is equality within one sort of value; the sorts
are never mixed, so a UUID differs from its text.
-/

namespace RowQuery

inductive Value where
  | null
  | bool (b : Bool)
  | int (n : Int64)
  | float (x : Double)
  | string (s : String)
  | list (items : List Value)
  | uuid (u : Uuid)
  | timestamp (t : Timestamp)
deriving Repr, Inhabited

namespace Value

def isNull : Value → Bool
  | .null => true
  | _ => false

def string? : Value → Option String
  | .string s => some s
  | _ => none

def int? : Value → Option Int64
  | .int n => some n
  | _ => none

def bool? : Value → Option Bool
  | .bool b => some b
  | _ => none

/-- The sort of a value. -/
def kind : Value → String
  | .null => "Null"
  | .bool _ => "Bool"
  | .int _ => "Int"
  | .float _ => "Float"
  | .string _ => "String"
  | .list _ => "List"
  | .uuid _ => "Uuid"
  | .timestamp _ => "Timestamp"

mutual

/-- Equality of values, with floats taken at their numeric value. -/
def same : Value → Value → Bool
  | .null, .null => true
  | .bool a, .bool b => a == b
  | .int a, .int b => a == b
  | .float a, .float b => a.numEq b
  | .string a, .string b => a == b
  | .list a, .list b => sameItems a b
  | .uuid a, .uuid b => a == b
  | .timestamp a, .timestamp b => a == b
  | _, _ => false

def sameItems : List Value → List Value → Bool
  | [], [] => true
  | a :: as, b :: bs => a.same b && sameItems as bs
  | _, _ => false

end

end Value

/-- Types whose members can stand in a condition; an absent member is null. -/
class ToValue (α : Type) where
  toValue : α → Value

export ToValue (toValue)

section

variable {α : Type} [ToValue α]

instance : ToValue Value := ⟨id⟩
instance : ToValue Bool := ⟨.bool⟩
instance : ToValue Int64 := ⟨.int⟩
instance : ToValue Int32 := ⟨fun n => .int n.toInt64⟩
instance : ToValue UInt32 := ⟨fun n => .int n.toUInt64.toInt64⟩
instance : ToValue Double := ⟨.float⟩
instance : ToValue String := ⟨.string⟩
instance : ToValue Uuid := ⟨.uuid⟩
instance : ToValue Timestamp := ⟨.timestamp⟩
instance : ToValue (Option α) := ⟨fun a => (a.map toValue).getD .null⟩
instance : ToValue (List α) := ⟨fun as => .list (as.map toValue)⟩

end

end RowQuery
