import RowQuery.Document.Filter
import RowQuery.Sql.Select

/-!
# Serialized forms

What operators, cache policies, statements and document queries are serialized to. The members of
these objects stand in the order in which they are declared; a document (`toJson`) has the same
members by name.
-/

namespace RowQuery

def Pattern.serialize (p : Pattern) : Json :=
  .obj [("kind", .str p.kind.name), ("text", .str p.text), ("case_insensitive", .bool p.ignoreCase)]

namespace Operator

/-- The members of an operator: its kind, and what stands beside it. -/
def members (tag : String) (payload : Option Json) : List (String × Json) :=
  ("kind", .str tag) :: (payload.map (("value", ·))).toList

def serialize : Operator → Json
  | not o => .obj (members "not" (some o.serialize))
  | like p => .obj (members "like" (some p.serialize))
  | o => .obj (members o.tag o.payload?)

end Operator

def Duration.serialize (d : Duration) : Json :=
  .obj [("secs", .ofUInt64 d.seconds), ("nanos", .ofNat d.nanos)]

def CachePolicy.serialize : CachePolicy → Json
  | disabled => .str "disabled"
  | standard => .str "default"
  | ttl d => .obj [("ttl", d.serialize)]

def OrderBy.serialize (o : OrderBy) : Json :=
  .obj [("field", .str o.field), ("direction", .str o.direction.name)]

/-! ### Statements -/

namespace Sql.Select

def serialize (s : Select) : Json :=
  .obj [("sql", .str s.text), ("params", .arr (s.operands.map Value.serialize)),
    ("cache", (s.cache.map Duration.serialize).getD .null)]

def toJson (s : Select) : Json := s.serialize.byName

end Sql.Select

/-! ### Document queries -/

namespace Document

mutual

def Filter.serialize : Filter → Json
  | .field name op operand =>
    .obj [("type", .str "field"), ("field", .str name), ("op", .str op.name), ("value", operand)]
  | .and filters => .obj [("type", .str "and"), ("filters", .arr (Filter.serializeAll filters))]
  | .or filters => .obj [("type", .str "or"), ("filters", .arr (Filter.serializeAll filters))]

def Filter.serializeAll : List Filter → List Json
  | [] => []
  | f :: fs => f.serialize :: Filter.serializeAll fs

end

/-- A member that is left out without a value. -/
def optional {α : Type} (name : String) (encode : α → Json) (a : Option α) : List (String × Json) :=
  (a.map fun a => (name, encode a)).toList

/-- A member that is left out for an empty list. -/
def nonempty {α : Type} (name : String) (encode : α → Json) (as : List α) : List (String × Json) :=
  if as.isEmpty then [] else [(name, .arr (as.map encode))]

namespace Query

def serialize (q : Query) : Json :=
  .obj <| ("collection", .str q.collection) :: optional "filter" Filter.serialize q.filter ++
    nonempty "orderBy" OrderBy.serialize q.order ++ nonempty "select" .str q.select ++
    optional "offset" .ofUInt64 q.offset ++ optional "limit" .ofUInt64 q.limit ++
    optional "cache" Duration.serialize q.cache

def toJson (q : Query) : Json := q.serialize.byName

end Query

end Document

end RowQuery
