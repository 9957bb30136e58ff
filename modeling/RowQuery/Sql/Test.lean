import RowQuery.Operator
import RowQuery.Sql.Fragment

/-!
# Tests of columns

The tests that a statement can make of a column. Negations go inwards as far as there is a test
that says the same: comparisons turn round, and equality, null tests and membership have a negative
form of their own.
-/

namespace RowQuery

namespace Pattern

def escapeWildcard (c : Char) : List Char :=
  if c = '\\' ∨ c = '%' ∨ c = '_' then ['\\', c] else [c]

/-- The pattern with wildcards; a wildcard in its text stands for itself. -/
def wildcards (p : Pattern) : String :=
  let cs := p.text.toList.flatMap escapeWildcard
  String.ofList <| match p.kind with
    | .startsWith => cs ++ ['%']
    | .endsWith => '%' :: cs
    | .contains => '%' :: cs ++ ['%']

end Pattern

namespace Sql

/-- A field of a table under the name that a statement gives to the table. -/
structure Column where
  table : String
  field : String
deriving DecidableEq, Repr

def Column.fragment (c : Column) : Fragment := [.name c.table, .text ".", .name c.field]

inductive Sign where
  | eq | ne | lt | le | gt | ge
deriving DecidableEq, Repr

def Sign.text : Sign → String
  | eq => "="
  | ne => "<>"
  | lt => "<"
  | le => "<="
  | gt => ">"
  | ge => ">="

inductive Test where
  | compare (c : Column) (s : Sign) (v : Value)
  | null (negated : Bool) (c : Column)
  | between (c : Column) (low high : Value)
  | like (c : Column) (ignoreCase : Bool) (pattern : String)
  | oneOf (negated : Bool) (c : Column) (vs : List Value)
  /-- The value is an element of the column. -/
  | element (v : Value) (c : Column)
  /-- The column has an element among the values. -/
  | overlap (c : Column) (vs : List Value)
  | constant (b : Bool)
  | not (t : Test)
deriving Repr

namespace Test

/-- A test that has no negative form of its own. -/
def negate (negated : Bool) (t : Test) : Test := if negated then not t else t

/-- The test that an operator, or its negation, makes of a column. -/
def ofOperator (c : Column) (negated : Bool) : Operator → Test
  | .equal v => if v.isNull then null negated c else compare c (if negated then .ne else .eq) v
  | .moreThan v => compare c (if negated then .le else .gt) v
  | .moreThanOrEqual v => compare c (if negated then .lt else .ge) v
  | .lessThan v => compare c (if negated then .ge else .lt) v
  | .lessThanOrEqual v => compare c (if negated then .gt else .le) v
  | .between low high => negate negated (between c low high)
  | .like p => negate negated (like c p.ignoreCase p.wildcards)
  | .oneOf vs => if vs.isEmpty then constant negated else oneOf negated c vs
  | .isNull => null negated c
  | .arrayContains v => negate negated (element v c)
  | .arrayContainsAny vs => negate negated (if vs.isEmpty then constant false else overlap c vs)
  | .not o => ofOperator c (!negated) o

def operandList (vs : List Value) : Fragment :=
  Fragment.separated ", " (vs.map fun v => [.operand v])

def fragment : Test → Fragment
  | compare c s v => c.fragment ++ [.text (" " ++ s.text ++ " "), .operand v]
  | null negated c => c.fragment ++ [.text (if negated then " IS NOT NULL" else " IS NULL")]
  | between c low high =>
    c.fragment ++ [.text " BETWEEN ", .operand low, .text " AND ", .operand high]
  | like c ignoreCase pattern =>
    c.fragment ++
      [.text (if ignoreCase then " ILIKE " else " LIKE "), .operand (.string pattern)]
  | oneOf negated c vs =>
    c.fragment ++ .text (if negated then " NOT IN (" else " IN (") :: operandList vs ++ [.text ")"]
  | element v c => [.operand v, .text " = ANY("] ++ c.fragment ++ [.text ")"]
  | overlap c vs => c.fragment ++ .text " && ARRAY[" :: operandList vs ++ [.text "]"]
  | constant b => [.text (if b then "TRUE" else "FALSE")]
  | not t => .text "NOT (" :: t.fragment ++ [.text ")"]

end Test

end Sql

end RowQuery
