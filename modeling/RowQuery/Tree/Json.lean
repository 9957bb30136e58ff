import RowQuery.Operator.Json
import RowQuery.Tree.Predicate
import RowQuery.Tree.Relation

/-!
# Trees as JSON

A tree is an object. Values, operators and nested trees stand bare in it, and a relation that is
loaded without any below it is `true`.
-/

namespace RowQuery

mutual

def Condition.toJson : Condition → Json
  | .value v => v.serialize
  | .op o => o.toJson
  | .nested t => .obj (PredicateTree.jsonMembers t)

def PredicateTree.jsonMembers : List (String × Condition) → List (String × Json)
  | [] => []
  | (k, c) :: t => (k, c.toJson) :: PredicateTree.jsonMembers t

end

def PredicateTree.toJson (t : PredicateTree) : Json := .obj (jsonMembers t)

def Predicate.toJson : Predicate → Json
  | .all t => t.toJson
  | .any bs => .arr (bs.map PredicateTree.toJson)

mutual

def RelationNode.toJson : RelationNode → Json
  | .load => .bool true
  | .nested t => .obj (RelationTree.jsonMembers t)

def RelationTree.jsonMembers : List (String × RelationNode) → List (String × Json)
  | [] => []
  | (k, n) :: t => (k, n.toJson) :: RelationTree.jsonMembers t

end

def RelationTree.toJson (t : RelationTree) : Json := .obj (jsonMembers t)

end RowQuery
