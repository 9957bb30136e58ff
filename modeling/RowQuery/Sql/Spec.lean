import RowQuery.Config
import RowQuery.Path
import RowQuery.Sql.Select

/-!
# Specifications as statements

Every declared relation becomes a join, in the order of the declared paths. A condition on a related
entity is a test of the joined table, so its relation has to be declared too.
-/

namespace RowQuery.Sql

/-- The path of a relation below the path `parent`, which is empty at the root. -/
def pathBelow (parent name : String) : String :=
  if parent = "" then name else parent ++ "." ++ name

/-- The name of the table that a path of relations leads to. -/
def tableAt (path : String) : String := if path = "" then root else aliasOf path

/-- The relation that the field of a shape is. -/
def relationOf (s : Shape) (field path : String) : Except QueryError Relation := do
  match (← s.requireField field).relation? with
  | some r => return r
  | none => throw (.notARelation s.name field path)

/-! ### Joins -/

mutual

def joinsBelow (σ : Schema) (s : Shape) (path : String) :
    RelationNode → Except QueryError (List Join)
  | .load => .ok []
  | .nested t => joinsOf σ s path t

/-- The joins of the relations of `s` that are declared below the path `parent`. -/
def joinsOf (σ : Schema) (s : Shape) (parent : String) :
    List (String × RelationNode) → Except QueryError (List Join)
  | [] => .ok []
  | (name, node) :: t => do
    let path := pathBelow parent name
    let relation ← relationOf s name path
    let target ← σ.shape relation.target
    let below ← joinsBelow σ target path node
    return ⟨path, tableAt parent, target, relation⟩ :: below ++ (← joinsOf σ s parent t)

end

/-! ### Tests -/

mutual

def testsOf (σ : Schema) (relations : RelationTree) (s : Shape) (parent key : String) :
    Condition → Except QueryError (List Test)
  | .value v => do
    let _ ← s.requireField key
    return [.ofOperator ⟨tableAt parent, key⟩ false (.equal v)]
  | .op o => do
    let _ ← s.requireField key
    return [.ofOperator ⟨tableAt parent, key⟩ false o]
  | .nested t => do
    let path := pathBelow parent key
    let relation ← relationOf s key path
    refuseIf (relations.containsPath (dotPieces path) = false) (.invalidPath path)
    tests σ relations (← σ.shape relation.target) path t

/-- The tests of a tree of conditions on `s`, which stands at the path `parent`. -/
def tests (σ : Schema) (relations : RelationTree) (s : Shape) (parent : String) :
    List (String × Condition) → Except QueryError (List Test)
  | [] => .ok []
  | (key, c) :: t => do
    return (← testsOf σ relations s parent key c) ++ (← tests σ relations s parent t)

end

def whereOf (σ : Schema) (relations : RelationTree) (s : Shape) :
    Predicate → Except QueryError Where
  | .all t => do return .all (← tests σ relations s "" t)
  | .any branches => do return .any (← branches.mapM (tests σ relations s ""))

/-! ### Statements -/

/-- The statement for a specification. -/
def Select.ofSpec (σ : Schema) (q : QuerySpec) : Except QueryError Select := do
  let s ← σ.shape q.entity
  let joins ← joinsOf σ s "" q.relations
  s.requireFields q.selection
  let condition ← whereOf σ q.relations s q.predicate
  s.requireFields (q.order.map OrderBy.field)
  let own := if q.selection.isEmpty then [Output.row] else q.selection.map .column
  return {
    table := s.table
    outputs := own ++ joins.map (if q.loadRelationIds then .keyOf else .rowOf)
    joins := joins
    condition := condition
    order := q.order
    limit := q.pagination.pageSize?
    offset := q.pagination.offset?.filter (0 < ·)
    cache := q.cache.resolve standardCacheTime }

end RowQuery.Sql
