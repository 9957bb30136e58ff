import RowQuery.Proofs.Sql.Leaves
import RowQuery.Proofs.Sql.Spacing

/-!
# The text of a statement

Every statement is spaced, so its text is read back piece by piece. The names in it are those of the
tables, of their aliases and of the fields that are selected, joined, tested and sorted by.
-/

namespace RowQuery

namespace Sql

/-! ### Spacing -/

open Fragment

section Spacing

open Fragment

theorem spaced_operandList (vs : List Value) : (Test.operandList vs).spaced = true := by
  refine spaced_separated rfl rfl rfl fun f hf => ?_
  obtain ⟨v, _, rfl⟩ := List.mem_map.1 hf
  rfl

theorem Test.spaced_fragment (t : Test) : t.fragment.spaced = true := by
  induction t with
  | compare c s v => cases s <;> rfl
  | null negated c => cases negated <;> rfl
  | between c low high => rfl
  | like c ignoreCase pattern => cases ignoreCase <;> rfl
  | oneOf negated c vs =>
    have hvs := spaced_operandList vs
    rw [fragment, List.append_assoc]
    cases negated with
    | false => exact spaced_append rfl (spaced_enclosed rfl rfl hvs rfl rfl) rfl
    | true => exact spaced_append rfl (spaced_enclosed rfl rfl hvs rfl rfl) rfl
  | element v c => rfl
  | overlap c vs =>
    rw [fragment, List.append_assoc]
    exact spaced_append rfl (spaced_enclosed rfl rfl (spaced_operandList vs) rfl rfl) rfl
  | constant b => cases b <;> rfl
  | not t ih => exact spaced_enclosed rfl rfl ih rfl rfl

namespace Where

theorem spaced_conjunction (ts : List Test) : (conjunction ts).spaced = true := by
  refine spaced_separated rfl rfl rfl fun f hf => ?_
  obtain ⟨t, _, rfl⟩ := List.mem_map.1 hf
  exact t.spaced_fragment

theorem spaced_alternative (ts : List Test) : (alternative ts).spaced = true := by
  match ts with
  | [] => rfl
  | [t] => exact t.spaced_fragment
  | t :: t' :: ts => exact spaced_enclosed rfl rfl (spaced_conjunction _) rfl rfl

theorem spaced_fragment (w : Where) : w.fragment.spaced = true := by
  match w with
  | all [] => rfl
  | all (t :: ts) => exact spaced_cons.2 ⟨rfl, .inl rfl, spaced_conjunction (t :: ts)⟩
  | any [] => rfl
  | any (ts :: tss) =>
    refine spaced_cons.2 ⟨rfl, .inl rfl, spaced_separated rfl rfl rfl fun f hf => ?_⟩
    obtain ⟨ts, _, rfl⟩ := List.mem_map.1 hf
    exact spaced_alternative ts

theorem closing_fragment (w : Where) : w.fragment.closing = true := by
  match w with
  | all [] => rfl
  | all (_ :: _) => rfl
  | any [] => rfl
  | any (_ :: _) => rfl

end Where

namespace Select

theorem isFixedText_toString (n : Nat) : isFixedText (toString n).toList = true := by
  rw [toList_toString, isFixedText, List.all_eq_true]
  intro d hd
  have hdigit : d.isDigit = true := Nat.isDigit_of_mem_toDigits (by decide) (by decide) hd
  have hquote : d ≠ '"' := by rintro rfl; cases hdigit
  have hdollar : d ≠ '$' := by rintro rfl; cases hdigit
  simp [hquote, hdollar]

theorem closing_numberClause (keyword : String) (n : Option UInt64) :
    (numberClause keyword n).closing = true := by
  cases n with
  | none => rfl
  | some n => simp [numberClause, closing, Piece.closes, isBreak, isWordChar]

theorem spaced_numberClause {keyword : String} (hkeyword : isFixedText keyword.toList = true)
    (n : Option UInt64) : (numberClause keyword n).spaced = true := by
  cases n with
  | none => rfl
  | some n =>
    have hplain : isFixedText (" " ++ keyword ++ " " ++ toString n).toList = true := by
      simp only [isFixedText, String.toList_append, List.all_append, Bool.and_eq_true]
      exact ⟨⟨⟨rfl, hkeyword⟩, rfl⟩, isFixedText_toString n.toNat⟩
    exact spaced_cons.2 ⟨hplain, .inr rfl, rfl⟩

theorem spaced_orderFragment (o : OrderBy) : (orderFragment o).spaced = true := by
  obtain ⟨field, direction⟩ := o
  cases direction with
  | asc =>
    show spaced ((Column.mk root field).fragment ++ [.text " ASC"]) = true
    rfl
  | desc =>
    show spaced ((Column.mk root field).fragment ++ [.text " DESC"]) = true
    rfl

theorem spaced_orderClause (order : List OrderBy) : (orderClause order).spaced = true := by
  cases order with
  | nil => rfl
  | cons o os =>
    refine spaced_cons.2 ⟨rfl, .inl rfl, spaced_separated rfl rfl rfl fun f hf => ?_⟩
    obtain ⟨o, _, rfl⟩ := List.mem_map.1 hf
    exact spaced_orderFragment o

theorem closing_orderClause (order : List OrderBy) : (orderClause order).closing = true := by
  cases order <;> rfl

theorem spaced_joins (joins : List Join) :
    Fragment.spaced (joins.flatMap Join.fragment) = true ∧
      Fragment.closing (joins.flatMap Join.fragment) = true := by
  induction joins with
  | nil => exact ⟨rfl, rfl⟩
  | cons j joins ih =>
    rw [List.flatMap_cons]
    exact ⟨spaced_append rfl ih.1 ih.2, rfl⟩

theorem spaced_outputs (outputs : List Output) :
    (separated ", " (outputs.map Output.fragment)).spaced = true := by
  refine spaced_separated rfl rfl rfl fun f hf => ?_
  obtain ⟨o, _, rfl⟩ := List.mem_map.1 hf
  cases o <;> rfl

/-- What stands before the condition. -/
def front (s : Select) : Fragment :=
  .text "SELECT " :: separated ", " (s.outputs.map Output.fragment) ++
    [.text " FROM ", .name s.table, .text " AS ", .name root] ++ s.joins.flatMap Join.fragment

/-- What stands behind the condition. -/
def back (s : Select) : Fragment :=
  orderClause s.order ++ numberClause "LIMIT" s.limit ++ numberClause "OFFSET" s.offset

variable (s : Select)

theorem fragment_eq : s.fragment = s.front ++ s.condition.fragment ++ s.back := by
  simp only [fragment, front, back, List.append_assoc]

theorem spaced_front : s.front.spaced = true := by
  have houtputs :
      spaced (.text "SELECT " :: separated ", " (s.outputs.map Output.fragment)) = true :=
    spaced_cons.2 ⟨rfl, .inl rfl, spaced_outputs s.outputs⟩
  have htable : spaced [.text " FROM ", .name s.table, .text " AS ", .name root] = true := rfl
  have hjoins := spaced_joins s.joins
  exact spaced_append (spaced_append houtputs htable rfl) hjoins.1 hjoins.2

theorem spaced_back : s.back.spaced = true ∧ s.back.closing = true := by
  have hlimit : (numberClause "LIMIT" s.limit).spaced = true := spaced_numberClause rfl _
  have hoffset : (numberClause "OFFSET" s.offset).spaced = true := spaced_numberClause rfl _
  have hlimited := spaced_append (spaced_orderClause s.order) hlimit (closing_numberClause _ _)
  have hclosing := closing_append (closing_orderClause s.order)
    (closing_numberClause "LIMIT" s.limit)
  exact ⟨spaced_append hlimited hoffset (closing_numberClause _ _),
    closing_append hclosing (closing_numberClause _ _)⟩

theorem spaced_fragment : s.fragment.spaced = true := by
  have hwhere := spaced_append s.spaced_front s.condition.spaced_fragment
    s.condition.closing_fragment
  rw [fragment_eq]
  exact spaced_append hwhere s.spaced_back.1 s.spaced_back.2

end Select

end Spacing

/-! ### Names -/

section Names

/-- The tests of all alternatives. -/
def Where.tests : Where → List Test
  | all ts => ts
  | any tss => tss.flatten

theorem Where.tests_ofPredicate (p : Predicate) :
    (ofPredicate p).tests = p.leaves.map Leaf.test := by
  cases p with
  | all t => simp [ofPredicate, tests, Predicate.leaves, Predicate.alternatives]
  | any ts =>
    simp [ofPredicate, tests, Predicate.leaves, Predicate.alternatives, List.flatMap_def,
      List.map_flatten]
    rfl

def Column.names (c : Column) : List String := [c.table, c.field]

def Join.names (j : Join) : List String :=
  [j.shape.table, j.table] ++ (Column.mk j.table j.relation.foreignKey).names ++
    (Column.mk j.parent j.relation.localKey).names

def Output.names : Output → List String
  | row => [root]
  | column field => (Column.mk root field).names
  | keyOf j => (Column.mk j.table j.shape.primaryKey).names ++ [j.path]
  | rowOf j => [j.table, j.path]

@[simp] theorem Output.names_fragment (o : Output) : o.fragment.names = o.names := by
  cases o <;> rfl

@[simp] theorem Join.names_fragment (j : Join) : j.fragment.names = j.names := rfl

@[simp] theorem names_orderFragment (o : OrderBy) :
    (orderFragment o).names = (Column.mk root o.field).names := rfl

theorem names_operandList (vs : List Value) : (Test.operandList vs).names = [] := by
  rw [Test.operandList, names_separated, List.flatMap_map]
  simp

namespace Where

theorem names_conjunction (ts : List Test) :
    (conjunction ts).names = ts.flatMap fun t => t.fragment.names := by
  rw [conjunction, names_separated, List.flatMap_map]

theorem names_alternative (ts : List Test) :
    (alternative ts).names = ts.flatMap fun t => t.fragment.names := by
  match ts with
  | [] => rfl
  | [t] => simp [alternative]
  | t :: t' :: ts =>
    rw [alternative_cons_cons, names_append, names_text, names_conjunction]
    simp

/-- The names in a condition are those of its tests. -/
theorem names_fragment (w : Where) :
    w.fragment.names = w.tests.flatMap fun t => t.fragment.names := by
  match w with
  | all [] => rfl
  | all (t :: ts) => exact names_conjunction (t :: ts)
  | any [] => rfl
  | any (ts :: tss) =>
    have hnames : names (separated " OR " ((ts :: tss).map alternative)) =
        (ts :: tss).flatMap fun ts => ts.flatMap fun t => t.fragment.names := by
      simp only [names_separated, List.flatMap_map, names_alternative]
    rw [fragment_any_cons, names_text, hnames, tests, List.flatten_eq_flatMap, List.flatMap_assoc]
    rfl

end Where

namespace Select

theorem names_fragment (s : Select) :
    s.fragment.names =
      s.outputs.flatMap Output.names ++ [s.table, root] ++ s.joins.flatMap Join.names ++
        (s.condition.tests.flatMap fun t => t.fragment.names) ++
        s.order.flatMap fun o => (Column.mk root o.field).names := by
  have hnumber (keyword : String) (n : Option UInt64) : (numberClause keyword n).names = [] := by
    cases n <;> rfl
  have horder : (orderClause s.order).names =
      s.order.flatMap fun o => (Column.mk root o.field).names := by
    cases s.order with
    | nil => rfl
    | cons o os =>
      rw [orderClause_cons, names_text, names_separated, List.flatMap_map]
      simp
  have hjoins : names (s.joins.flatMap Join.fragment) = s.joins.flatMap Join.names := by
    rw [names, List.filterMap_flatMap]
    rfl
  simp only [fragment, names_append, names_text, names_separated, List.flatMap_map,
    Output.names_fragment, hjoins, Where.names_fragment, horder, hnumber, List.append_nil]
  rfl

end Select

theorem Test.names_negate (negated : Bool) (t : Test) :
    (negate negated t).fragment.names = t.fragment.names := by
  cases negated with
  | false => rfl
  | true => simp [negate, fragment]

/-- A test names its column, unless an empty list decides without it. -/
theorem Test.names_ofOperator (c : Column) (negated : Bool) (o : Operator) :
    (ofOperator c negated o).fragment.names = if o.readsColumn then c.names else [] := by
  induction o generalizing negated with
  | equal v =>
    unfold ofOperator
    by_cases hv : v.isNull = true
    · rw [if_pos hv]
      rfl
    · rw [if_neg hv]
      rfl
  | oneOf vs =>
    unfold ofOperator
    cases vs with
    | nil => rfl
    | cons v vs =>
      simp [fragment, names_operandList, Operator.readsColumn, Column.fragment, Column.names]
  | arrayContainsAny vs =>
    unfold ofOperator
    rw [names_negate]
    cases vs with
    | nil => rfl
    | cons v vs =>
      simp [fragment, names_operandList, Operator.readsColumn, Column.fragment, Column.names]
  | between low high => exact names_negate negated _
  | like p => exact names_negate negated _
  | arrayContains v => exact names_negate negated _
  | not o ih => exact ih !negated
  | _ => rfl

end Names

end Sql

open Sql

/-! ### Names of a specification -/

/-- The names in the test of a leaf. -/
def Leaf.names (l : Leaf) : List String := if l.operator.readsColumn then l.column.names else []

theorem Leaf.names_test (l : Leaf) : l.test.fragment.names = l.names :=
  Test.names_ofOperator _ _ _

/-- What a specification on the shape `s` selects of its own columns and of joined rows. -/
def QuerySpec.outputs (q : QuerySpec) (joins : List Join) : List Output :=
  (if q.selection.isEmpty then [Output.row] else q.selection.map .column) ++
    joins.map (if q.loadRelationIds then .keyOf else .rowOf)

/-- The names in the statement for a specification on the shape `s`: those of the selected columns,
of the table, of the joins, of the conditions and of the sort keys. -/
def QuerySpec.names (q : QuerySpec) (s : Shape) (joins : List Join) : List String :=
  (q.outputs joins).flatMap Output.names ++ [s.table, root] ++ joins.flatMap Join.names ++
    q.predicate.leaves.flatMap Leaf.names ++ q.order.flatMap fun o => (Column.mk root o.field).names

theorem Sql.Select.names_of_ofSpec {σ : Schema} {q : QuerySpec} {stmt : Select}
    (h : ofSpec σ q = .ok stmt) :
    ∃ s, σ.shape q.entity = .ok s ∧ joinsOf σ s "" q.relations = .ok stmt.joins ∧
      stmt.fragment.names = q.names s stmt.joins := by
  obtain ⟨s, joins, hs, hjoins, rfl⟩ := ofSpec_eq_ok h
  refine ⟨s, hs, hjoins, ?_⟩
  rw [names_fragment, Where.tests_ofPredicate, List.flatMap_map]
  simp only [Leaf.names_test]
  rfl

end RowQuery
