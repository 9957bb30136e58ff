import RowQuery.Proofs.Tree.Traversal
import RowQuery.Sql.Spec

/-!
# The tests of a statement one by one

Every condition of a predicate becomes one test in the statement: the test that its operator makes
of its own column. The tests stand in the order in which the leaves of the predicate are listed, and
each hands on the operands of its operator.
-/

namespace RowQuery

/-- The values that an operator hands to a statement. Null has a test of its own, and a pattern is
handed on with its wildcards. -/
def Operator.operands : Operator → List Value
  | equal v => if v.isNull then [] else [v]
  | moreThan v | moreThanOrEqual v | lessThan v | lessThanOrEqual v | arrayContains v => [v]
  | between low high => [low, high]
  | like p => [.string p.wildcards]
  | oneOf vs | arrayContainsAny vs => vs
  | isNull => []
  | not o => o.operands

/-- Whether the test of the operator reads its column; an empty list decides without. -/
def Operator.readsColumn : Operator → Bool
  | oneOf vs | arrayContainsAny vs => !vs.isEmpty
  | not o => o.readsColumn
  | _ => true

namespace Sql

/-! ### Operands -/

namespace Test

theorem operands_operandList (vs : List Value) : (operandList vs).operands = vs := by
  rw [operandList, Fragment.operands_separated, List.flatMap_map]
  exact List.flatMap_singleton' vs

@[simp] theorem operands_column (c : Column) : c.fragment.operands = [] := rfl

theorem operands_negate (negated : Bool) (t : Test) :
    (negate negated t).fragment.operands = t.fragment.operands := by
  cases negated with
  | false => rfl
  | true => simp [negate, fragment]

/-- A test hands on the operands of its operator, negated or not. -/
theorem operands_ofOperator (c : Column) (negated : Bool) (o : Operator) :
    (ofOperator c negated o).fragment.operands = o.operands := by
  induction o generalizing negated with
  | equal v =>
    unfold ofOperator Operator.operands
    by_cases hv : v.isNull = true
    · rw [if_pos hv, if_pos hv]
      rfl
    · rw [if_neg hv, if_neg hv]
      rfl
  | oneOf vs =>
    unfold ofOperator Operator.operands
    cases vs with
    | nil => rfl
    | cons v vs => simp [fragment, operands_operandList]
  | arrayContainsAny vs =>
    unfold ofOperator Operator.operands
    rw [operands_negate]
    cases vs with
    | nil => rfl
    | cons v vs => simp [fragment, operands_operandList]
  | between low high => exact operands_negate negated _
  | like p => exact operands_negate negated _
  | arrayContains v => exact operands_negate negated _
  | not o ih => exact ih !negated
  | _ => rfl

end Test

end Sql

/-! ### Leaves -/

open Sql

/-- The path that a chain of keys stands for in a statement. -/
def Sql.pathOf (chain : List String) : String := chain.foldl pathBelow ""

theorem Sql.pathOf_concat (chain : List String) (key : String) :
    pathOf (chain ++ [key]) = pathBelow (pathOf chain) key := by
  simp [pathOf]

namespace Leaf

variable (l : Leaf)

def column : Column := ⟨tableAt (pathOf l.chain), l.field⟩

def test : Test := .ofOperator l.column false l.operator

def operands : List Value := l.operator.operands

theorem operands_test : l.test.fragment.operands = l.operands :=
  Test.operands_ofOperator _ _ _

end Leaf

namespace Sql

variable {σ : Schema}

mutual

theorem testsOf_eq_ok : {r : RelationTree} → {s : Shape} → {chain : List String} →
    {key : String} → {ts : List Test} → (c : Condition) →
    testsOf σ r s (pathOf chain) key c = .ok ts → ts = (c.leaves chain key).map Leaf.test
  | _, _, _, _, _, .value _, h => by
    obtain ⟨_, _, h⟩ := bind_eq_ok.1 h
    cases h
    rfl
  | _, _, _, _, _, .op _, h => by
    obtain ⟨_, _, h⟩ := bind_eq_ok.1 h
    cases h
    rfl
  | _, _, chain, key, _, .nested t, h => by
    rw [testsOf] at h
    obtain ⟨_, _, h⟩ := bind_eq_ok.1 h
    obtain ⟨_, _, h⟩ := bind_eq_ok.1 h
    obtain ⟨_, _, h⟩ := bind_eq_ok.1 h
    rw [← pathOf_concat] at h
    exact tests_eq_ok t h

/-- The tests of a tree are those of its leaves. -/
theorem tests_eq_ok : {r : RelationTree} → {s : Shape} → {chain : List String} →
    {ts : List Test} → (t : List (String × Condition)) → tests σ r s (pathOf chain) t = .ok ts →
    ts = (PredicateTree.leavesBelow chain t).map Leaf.test
  | _, _, _, _, [], h => by
    cases h
    rfl
  | _, _, chain, _, (key, c) :: t, h => by
    rw [tests] at h
    obtain ⟨ts, hts, h⟩ := bind_eq_ok.1 h
    obtain ⟨ts', hts', h⟩ := bind_eq_ok.1 h
    cases h
    rw [PredicateTree.leavesBelow, List.map_append, testsOf_eq_ok c hts, tests_eq_ok t hts']

end

theorem mapM_tests_eq_ok {r : RelationTree} {s : Shape} {trees : List PredicateTree}
    {tss : List (List Test)} (h : trees.mapM (tests σ r s "") = .ok tss) :
    tss = trees.map fun t => t.leaves.map Leaf.test := by
  induction trees generalizing tss with
  | nil =>
    cases h
    rfl
  | cons t trees ih =>
    rw [List.mapM_cons] at h
    obtain ⟨ts, hts, h⟩ := bind_eq_ok.1 h
    obtain ⟨tss', htss', h⟩ := bind_eq_ok.1 h
    cases h
    have hleaves : ts = t.leaves.map Leaf.test := tests_eq_ok t hts
    rw [List.map_cons, hleaves, ih htss']

/-- The tests of the leaves of a predicate, alternative by alternative. -/
def Where.ofPredicate : Predicate → Where
  | .all t => .all (t.leaves.map Leaf.test)
  | .any ts => .any (ts.map fun t => t.leaves.map Leaf.test)

theorem whereOf_eq_ok {r : RelationTree} {s : Shape} {p : Predicate} {w : Where}
    (h : whereOf σ r s p = .ok w) : w = .ofPredicate p := by
  cases p with
  | all t =>
    obtain ⟨ts, hts, h⟩ := bind_eq_ok.1 h
    cases h
    have hleaves : ts = t.leaves.map Leaf.test := tests_eq_ok t hts
    rw [Where.ofPredicate, hleaves]
  | any trees =>
    obtain ⟨tss, htss, h⟩ := bind_eq_ok.1 h
    cases h
    rw [Where.ofPredicate, mapM_tests_eq_ok htss]

/-- What an accepted specification is translated to. -/
theorem Select.ofSpec_eq_ok {q : QuerySpec} {stmt : Select} (h : ofSpec σ q = .ok stmt) :
    ∃ s joins, σ.shape q.entity = .ok s ∧ joinsOf σ s "" q.relations = .ok joins ∧
      stmt =
        { table := s.table
          outputs := (if q.selection.isEmpty then [Output.row] else q.selection.map .column) ++
            joins.map (if q.loadRelationIds then .keyOf else .rowOf)
          joins := joins
          condition := .ofPredicate q.predicate
          order := q.order
          limit := q.pagination.pageSize?
          offset := q.pagination.offset?.filter (0 < ·)
          cache := q.cache.resolve standardCacheTime } := by
  simp only [ofSpec, bind_eq_ok] at h
  obtain ⟨s, hs, joins, hjoins, _, _, condition, hcondition, _, _, h⟩ := h
  cases h
  rw [whereOf_eq_ok hcondition]
  exact ⟨s, joins, hs, hjoins, rfl⟩

end Sql

end RowQuery
