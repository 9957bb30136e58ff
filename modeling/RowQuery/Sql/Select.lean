import RowQuery.Schema
import RowQuery.Spec
import RowQuery.Sql.Test

/-!
# Select statements

A statement that selects rows of one table, called `root` in it, together with rows that belong to
them. A joined table is called by the path of relations that leads to it.
-/

namespace RowQuery.Sql

/-- The name of the table that the rows are selected from. -/
def root : String := "root"

/-- The name of the table at the end of a path of relations. -/
def aliasOf (path : String) : String := root ++ "." ++ path

/-- The rows of another table that belong to a row by a relation. -/
structure Join where
  path : String
  /-- The name of the table on the near side of the relation. -/
  parent : String
  shape : Shape
  relation : Relation
deriving DecidableEq, Repr

namespace Join

variable (j : Join)

def table : String := aliasOf j.path

def fragment : Fragment :=
  [.text " LEFT JOIN ", .name j.shape.table, .text " AS ", .name j.table, .text " ON "] ++
    (Column.mk j.table j.relation.foreignKey).fragment ++ .text " = " ::
    (Column.mk j.parent j.relation.localKey).fragment

end Join

inductive Output where
  /-- Every column of the selected table. -/
  | row
  | column (field : String)
  /-- The primary key of a joined row. -/
  | keyOf (j : Join)
  /-- A joined row as one document. -/
  | rowOf (j : Join)
deriving DecidableEq, Repr

def Output.fragment : Output → Fragment
  | row => [.name root, .text ".*"]
  | column field => (Column.mk root field).fragment
  | keyOf j => (Column.mk j.table j.shape.primaryKey).fragment ++ [.text " AS ", .name j.path]
  | rowOf j => [.text "to_jsonb(", .name j.table, .text ".*) AS ", .name j.path]

/-- Which rows are selected: those that pass all tests, or all tests of one of the alternatives. -/
inductive Where where
  | all (tests : List Test)
  | any (alternatives : List (List Test))
deriving Repr

namespace Where

def conjunction (tests : List Test) : Fragment :=
  Fragment.separated " AND " (tests.map Test.fragment)

/-- An alternative, in parentheses if it has several tests. -/
def alternative : List Test → Fragment
  | [] => (Test.constant true).fragment
  | [t] => t.fragment
  | tests => .text "(" :: conjunction tests ++ [.text ")"]

def fragment : Where → Fragment
  | all [] => []
  | all tests => .text " WHERE " :: conjunction tests
  | any [] => .text " WHERE " :: (Test.constant false).fragment
  | any alternatives => .text " WHERE " :: Fragment.separated " OR " (alternatives.map alternative)

theorem alternative_cons_cons (t t' : Test) (ts : List Test) :
    alternative (t :: t' :: ts) = .text "(" :: conjunction (t :: t' :: ts) ++ [.text ")"] := rfl

theorem fragment_all_cons (t : Test) (ts : List Test) :
    (all (t :: ts)).fragment = .text " WHERE " :: conjunction (t :: ts) := rfl

theorem fragment_any_cons (ts : List Test) (tss : List (List Test)) :
    (any (ts :: tss)).fragment =
      .text " WHERE " :: Fragment.separated " OR " ((ts :: tss).map alternative) := rfl

end Where

/-- A sort key of the selected table. -/
def orderFragment (o : OrderBy) : Fragment :=
  (Column.mk root o.field).fragment ++
    [.text (match o.direction with
      | .asc => " ASC"
      | .desc => " DESC")]

structure Select where
  table : String
  outputs : List Output
  joins : List Join
  condition : Where
  order : List OrderBy
  limit : Option UInt64
  offset : Option UInt64
  /-- How long the rows may be served again. -/
  cache : Option Duration
deriving Repr

namespace Select

/-- A clause with a number, if there is one. -/
def numberClause (keyword : String) : Option UInt64 → Fragment
  | none => []
  | some n => [.text (" " ++ keyword ++ " " ++ toString n)]

def orderClause : List OrderBy → Fragment
  | [] => []
  | order => .text " ORDER BY " :: Fragment.separated ", " (order.map orderFragment)

theorem orderClause_cons (o : OrderBy) (order : List OrderBy) :
    orderClause (o :: order) =
      .text " ORDER BY " :: Fragment.separated ", " ((o :: order).map orderFragment) := rfl

variable (s : Select)

def fragment : Fragment :=
  .text "SELECT " :: Fragment.separated ", " (s.outputs.map Output.fragment) ++
    [.text " FROM ", .name s.table, .text " AS ", .name root] ++
    s.joins.flatMap Join.fragment ++ s.condition.fragment ++ orderClause s.order ++
    numberClause "LIMIT" s.limit ++ numberClause "OFFSET" s.offset

def text : String := s.fragment.text

def operands : List Value := s.fragment.operands

end Select

end RowQuery.Sql
