import RowQuery.Caching
import RowQuery.Page
import RowQuery.Tree.Json

/-!
# Query specifications

A query in a form of its own, before it is put into the language of a store.
-/

namespace RowQuery

inductive Direction where
  | asc
  | desc
deriving DecidableEq, Repr

structure OrderBy where
  field : String
  direction : Direction
deriving DecidableEq, Repr

structure QuerySpec where
  entity : String
  predicate : Predicate
  relations : RelationTree
  /-- Sort keys, the most significant first. -/
  order : List OrderBy
  /-- The fields asked for, in the order of their names; with none every field is. -/
  selection : List String
  pagination : Pagination
  cache : CachePolicy
  /-- Whether related rows are represented by their keys. -/
  loadRelationIds : Bool
deriving Repr

namespace QuerySpec

/-- The query for all rows of an entity. -/
def all (entity : String) : QuerySpec where
  entity := entity
  predicate := .all []
  relations := []
  order := []
  selection := []
  pagination := .none
  cache := .disabled
  loadRelationIds := false

end QuerySpec

/-- Puts a name into an increasing list of names. -/
def insertName (name : String) : List String → List String
  | [] => [name]
  | n :: ns =>
    if name < n then name :: n :: ns else if name = n then n :: ns else n :: insertName name ns

/-! ### JSON -/

namespace Direction

def name : Direction → String
  | asc => "asc"
  | desc => "desc"

def ofName? : String → Option Direction
  | "asc" => some asc
  | "desc" => some desc
  | _ => none

end Direction

def OrderBy.toJson (o : OrderBy) : Json :=
  .mkObj [("field", .str o.field), ("direction", .str o.direction.name)]

def QuerySpec.toJson (q : QuerySpec) : Json :=
  .mkObj [("entity", .str q.entity), ("predicate", q.predicate.toJson),
    ("relations", q.relations.toJson), ("order", .arr (q.order.map OrderBy.toJson)),
    ("selection", .arr (q.selection.map .str)), ("pagination", q.pagination.toJson),
    ("cache", q.cache.toJson), ("load_relation_ids", .bool q.loadRelationIds)]

end RowQuery
