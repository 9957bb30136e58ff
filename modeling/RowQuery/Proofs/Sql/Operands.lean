import RowQuery.Proofs.Sql.Text

/-!
# The operands of a statement

The operands of a statement are those of the leaves of its predicate one after the other, and each
leaf has its own placeholders (`reads_of_ofSpec`). The text does not depend on the operands but for
which of them are null.
-/

namespace RowQuery

namespace Sql

open Fragment

/-! ### Operands -/

/-- The fragments `xs` stand in `f` one after the other, and nothing else in `f` has operands. -/
inductive Carries : List Fragment → Fragment → Prop
  | nil {f : Fragment} (h : f.operands = []) : Carries [] f
  | cons {f x g : Fragment} {xs : List Fragment} (h : f.operands = []) (hg : Carries xs g) :
    Carries (x :: xs) (f ++ x ++ g)

namespace Carries

variable {f g : Fragment} {xs ys : List Fragment}

theorem append (hf : Carries xs f) (hg : Carries ys g) : Carries (xs ++ ys) (f ++ g) := by
  induction hf with
  | nil h =>
    cases hg with
    | nil h' => exact .nil (by rw [operands_append, h, h']; rfl)
    | cons h' hg' =>
      rw [List.nil_append, ← List.append_assoc, ← List.append_assoc]
      exact .cons (by rw [operands_append, h, h']; rfl) hg'
  | cons h _ ih =>
    rw [List.cons_append, List.append_assoc]
    exact .cons h ih

theorem singleton (x : Fragment) : Carries [x] x := by
  have h : Carries [x] ([] ++ x ++ []) := .cons rfl (.nil rfl)
  simpa using h

theorem before (h : f.operands = []) (hg : Carries xs g) : Carries xs (f ++ g) :=
  append (.nil h) hg

theorem text (s : String) (hg : Carries xs g) : Carries xs (.text s :: g) :=
  before (show operands [.text s] = [] from rfl) hg

theorem after (hf : Carries xs f) (h : g.operands = []) : Carries xs (f ++ g) := by
  simpa using append hf (.nil h)

theorem operands_eq (hf : Carries xs f) : f.operands = xs.flatMap operands := by
  induction hf with
  | nil h => exact h
  | cons h _ ih => simp [h, ih]

/-- Before each of the fragments stand the operands of those before it. -/
theorem split {x : Fragment} (hf : Carries (xs ++ x :: ys) f) :
    ∃ f₁ f₂, f = f₁ ++ x ++ f₂ ∧ f₁.operands = xs.flatMap operands := by
  induction xs generalizing f with
  | nil =>
    cases hf with
    | cons h _ => exact ⟨_, _, rfl, h⟩
  | cons x' xs ih =>
    cases hf with
    | @cons f' _ g _ h hg =>
      obtain ⟨g₁, g₂, rfl, hg₁⟩ := ih hg
      refine ⟨f' ++ x' ++ g₁, g₂, by simp only [List.append_assoc], ?_⟩
      simp [h, hg₁]

theorem separated (separator : String) {α : Type} {items : α → List Fragment}
    {fragment : α → Fragment} :
    {as : List α} → (∀ a ∈ as, Carries (items a) (fragment a)) →
      Carries (as.flatMap items) (Fragment.separated separator (as.map fragment))
  | [], _ => .nil rfl
  | [a], h => by simpa using h
  | a :: b :: as, h => by
    obtain ⟨ha, has⟩ := List.forall_mem_cons.1 h
    rw [List.map_cons, List.map_cons, separated_cons_cons, List.flatMap_cons]
    exact ha.append (.text separator (separated separator has))

end Carries

namespace Where

theorem carries_conjunction (ts : List Test) :
    Carries (ts.map Test.fragment) (conjunction ts) := by
  have h := Carries.separated " AND " fun t (_ : t ∈ ts) => Carries.singleton t.fragment
  rwa [← List.map_eq_flatMap] at h

theorem carries_alternative (ts : List Test) :
    Carries (ts.map Test.fragment) (alternative ts) := by
  match ts with
  | [] => exact .nil rfl
  | [t] => exact .singleton t.fragment
  | t :: t' :: ts =>
    exact (Carries.text "(" (carries_conjunction (t :: t' :: ts))).after rfl

theorem carries_fragment (w : Where) : Carries (w.tests.map Test.fragment) w.fragment := by
  match w with
  | all [] => exact .nil rfl
  | all (t :: ts) => exact .text " WHERE " (carries_conjunction (t :: ts))
  | any [] => exact .nil rfl
  | any (ts :: tss) =>
    have h := Carries.separated " OR " fun us (_ : us ∈ ts :: tss) => carries_alternative us
    rw [tests, List.map_flatten, ← List.flatMap_def]
    exact .text " WHERE " h

end Where

namespace Select

variable (s : Select)

theorem operands_front : s.front.operands = [] := by
  have houtputs : Fragment.operands (separated ", " (s.outputs.map Output.fragment)) = [] := by
    rw [operands_separated, List.flatMap_map, List.flatMap_eq_nil_iff]
    intro o _
    cases o <;> rfl
  have hjoins : Fragment.operands (s.joins.flatMap Join.fragment) = [] := by
    rw [Fragment.operands, List.filterMap_flatMap, List.flatMap_eq_nil_iff]
    exact fun j _ => rfl
  rw [front, operands_append, operands_append, operands_text, houtputs, hjoins]
  rfl

theorem operands_back : s.back.operands = [] := by
  have hnumber (keyword : String) (n : Option UInt64) : (numberClause keyword n).operands = [] := by
    cases n <;> rfl
  have horder : (orderClause s.order).operands = [] := by
    cases s.order with
    | nil => rfl
    | cons o os =>
      rw [orderClause_cons, operands_text, operands_separated, List.flatMap_map,
        List.flatMap_eq_nil_iff]
      exact fun o _ => rfl
  rw [back, operands_append, operands_append, horder, hnumber, hnumber]
  rfl

/-- The tests of a statement, and nothing else in it, have operands. -/
theorem carries_fragment : Carries (s.condition.tests.map Test.fragment) s.fragment := by
  rw [fragment_eq]
  exact (Carries.before s.operands_front s.condition.carries_fragment).after s.operands_back

end Select

/-! ### Blank operands -/

/-- What the text of a statement knows of an operand: nothing but its place. -/
def Piece.blank : Piece → Piece
  | .operand _ => .operand .null
  | p => p

namespace Fragment

variable (f g : Fragment)

def blank : Fragment := f.map Piece.blank

theorem textAfter_blank (n : Nat) : f.blank.textAfter n = f.textAfter n := by
  induction f generalizing n with
  | nil => rfl
  | cons p f ih =>
    rw [blank] at ih
    cases p <;> simp [blank, textAfter, Piece.blank, ih]

theorem blank_append : blank (f ++ g) = blank f ++ blank g := List.map_append

theorem blank_separated (separator : String) :
    (fs : List Fragment) → blank (separated separator fs) = separated separator (fs.map blank)
  | [] => rfl
  | [f] => by simp
  | f :: g :: fs => by
    have hseparator : blank (.text separator :: separated separator (g :: fs)) =
        .text separator :: blank (separated separator (g :: fs)) := rfl
    rw [separated_cons_cons, blank_append, hseparator, blank_separated]
    exact (separated_cons_cons _ _ _ _).symm

end Fragment

end Sql

/-- The value, if all that is known of it is whether it is null. -/
def Value.blank (v : Value) : Value := if v.isNull then .null else .bool true

@[simp] theorem Value.isNull_blank (v : Value) : v.blank.isNull = v.isNull := by
  cases v <;> rfl

/-- The operator without the values of its operands. -/
def Operator.blank : Operator → Operator
  | equal v => equal v.blank
  | moreThan v => moreThan v.blank
  | moreThanOrEqual v => moreThanOrEqual v.blank
  | lessThan v => lessThan v.blank
  | lessThanOrEqual v => lessThanOrEqual v.blank
  | between low high => between low.blank high.blank
  | like p => like { p with text := "" }
  | oneOf vs => oneOf (vs.map Value.blank)
  | isNull => isNull
  | arrayContains v => arrayContains v.blank
  | arrayContainsAny vs => arrayContainsAny (vs.map Value.blank)
  | not o => not o.blank

mutual

def Condition.blank : Condition → Condition
  | .value v => .value v.blank
  | .op o => .op o.blank
  | .nested t => .nested (PredicateTree.blank t)

def PredicateTree.blank : List (String × Condition) → List (String × Condition)
  | [] => []
  | (k, c) :: t => (k, c.blank) :: PredicateTree.blank t

end

def Predicate.blank : Predicate → Predicate
  | .all t => .all (PredicateTree.blank t)
  | .any ts => .any (ts.map PredicateTree.blank)

def QuerySpec.blank (q : QuerySpec) : QuerySpec := { q with predicate := q.predicate.blank }

def Leaf.blank (l : Leaf) : Leaf := { l with operator := l.operator.blank }

mutual

theorem Condition.leaves_blank : (c : Condition) → (chain : List String) → (key : String) →
    c.blank.leaves chain key = (c.leaves chain key).map Leaf.blank
  | .value _, _, _ => rfl
  | .op _, _, _ => rfl
  | .nested t, chain, key => PredicateTree.leavesBelow_blank t (chain ++ [key])

theorem PredicateTree.leavesBelow_blank : (t : List (String × Condition)) →
    (chain : List String) →
    PredicateTree.leavesBelow chain (PredicateTree.blank t) =
      (PredicateTree.leavesBelow chain t).map Leaf.blank
  | [], _ => rfl
  | (k, c) :: t, chain => by
    rw [PredicateTree.blank, PredicateTree.leavesBelow, PredicateTree.leavesBelow,
      Condition.leaves_blank c, PredicateTree.leavesBelow_blank t, List.map_append]

end

namespace Sql

open Fragment

theorem Test.blank_operandList (vs : List Value) :
    (operandList (vs.map Value.blank)).blank = (operandList vs).blank := by
  simp only [operandList, blank_separated, List.map_map]
  rfl

theorem Test.blank_oneOf (negated : Bool) (c : Column) (vs : List Value) :
    (oneOf negated c (vs.map Value.blank)).fragment.blank =
      (oneOf negated c vs).fragment.blank := by
  have h (vs : List Value) : (oneOf negated c vs).fragment.blank =
      c.fragment.blank ++ .text (if negated then " NOT IN (" else " IN (") ::
        (operandList vs).blank ++ [.text ")"] := by
    rw [fragment, blank_append, blank_append]
    rfl
  rw [h, h, blank_operandList]

theorem Test.blank_overlap (c : Column) (vs : List Value) :
    (overlap c (vs.map Value.blank)).fragment.blank = (overlap c vs).fragment.blank := by
  have h (vs : List Value) : (overlap c vs).fragment.blank =
      c.fragment.blank ++ .text " && ARRAY[" :: (operandList vs).blank ++ [.text "]"] := by
    rw [fragment, blank_append, blank_append]
    rfl
  rw [h, h, blank_operandList]

theorem Test.blank_not (t : Test) :
    (not t).fragment.blank = .text "NOT (" :: t.fragment.blank ++ [.text ")"] :=
  blank_append _ _

theorem Test.blank_negate {negated : Bool} {t u : Test}
    (h : t.fragment.blank = u.fragment.blank) :
    (negate negated t).fragment.blank = (negate negated u).fragment.blank := by
  cases negated with
  | false => exact h
  | true => rw [negate, negate, if_pos rfl, if_pos rfl, blank_not, blank_not, h]

/-- Without its operands an operator makes the same test but for its operands. -/
theorem Test.blank_ofOperator (c : Column) (negated : Bool) (o : Operator) :
    (ofOperator c negated o.blank).fragment.blank = (ofOperator c negated o).fragment.blank := by
  induction o generalizing negated with
  | equal v =>
    unfold ofOperator Operator.blank
    simp only [Value.isNull_blank]
    by_cases hv : v.isNull = true
    · rw [if_pos hv, if_pos hv]
    · rw [if_neg hv, if_neg hv]
      rfl
  | oneOf vs =>
    cases vs with
    | nil => rfl
    | cons v vs => exact blank_oneOf negated c (v :: vs)
  | arrayContainsAny vs =>
    refine blank_negate ?_
    cases vs with
    | nil => rfl
    | cons v vs => exact blank_overlap c (v :: vs)
  | between low high => exact blank_negate rfl
  | like p => exact blank_negate rfl
  | arrayContains v => exact blank_negate rfl
  | not o ih => exact ih !negated
  | _ => rfl

theorem blank_test (l : Leaf) : l.blank.test.fragment.blank = l.test.fragment.blank :=
  Test.blank_ofOperator _ _ _

namespace Where

theorem blank_conjunction (ls : List Leaf) :
    (conjunction ((ls.map Leaf.blank).map Leaf.test)).blank =
      (conjunction (ls.map Leaf.test)).blank := by
  simp only [conjunction, blank_separated, List.map_map]
  congr 1
  exact List.map_congr_left fun l _ => blank_test l

theorem blank_alternative (ls : List Leaf) :
    (alternative ((ls.map Leaf.blank).map Leaf.test)).blank =
      (alternative (ls.map Leaf.test)).blank := by
  match ls with
  | [] => rfl
  | [l] => exact blank_test l
  | l :: l' :: ls =>
    have h (t t' : Test) (ts : List Test) : (alternative (t :: t' :: ts)).blank =
        .text "(" :: (conjunction (t :: t' :: ts)).blank ++ [.text ")"] := blank_append _ _
    have hconjunction := blank_conjunction (l :: l' :: ls)
    exact (h _ _ _).trans ((congrArg (.text "(" :: · ++ [.text ")"]) hconjunction).trans
      (h _ _ _).symm)

/-- The text of a condition does not depend on the values of the operands. -/
theorem blank_ofPredicate (p : Predicate) :
    (ofPredicate p.blank).fragment.blank = (ofPredicate p).fragment.blank := by
  have hleaves (t : PredicateTree) :
      PredicateTree.leaves (PredicateTree.blank t) = t.leaves.map Leaf.blank :=
    PredicateTree.leavesBelow_blank t []
  cases p with
  | all t =>
    rw [Predicate.blank, ofPredicate, ofPredicate, hleaves]
    cases hls : t.leaves with
    | nil => rfl
    | cons l ls => exact congrArg (.text " WHERE " :: ·) (blank_conjunction (l :: ls))
  | any ts =>
    rw [Predicate.blank, ofPredicate, ofPredicate]
    cases ts with
    | nil => rfl
    | cons t ts =>
      have h (us : List Test) (uss : List (List Test)) : (any (us :: uss)).fragment.blank =
          .text " WHERE " :: separated " OR " (((us :: uss).map alternative).map blank) :=
        congrArg (Piece.text " WHERE " :: ·) (blank_separated _ _)
      have halternative (t : PredicateTree) :
          (alternative ((PredicateTree.leaves (PredicateTree.blank t)).map Leaf.test)).blank =
            (alternative (t.leaves.map Leaf.test)).blank := by
        rw [hleaves, blank_alternative]
      simp only [List.map_cons, h, List.map_map, halternative, Function.comp_def]

end Where

/-- The text of a statement does not depend on the values of the operands. -/
theorem Select.text_eq_of_blank {σ : Schema} {q q' : QuerySpec} {stmt stmt' : Select}
    (h : ofSpec σ q = .ok stmt) (h' : ofSpec σ q' = .ok stmt') (hblank : q'.blank = q.blank) :
    stmt'.text = stmt.text := by
  obtain ⟨s, joins, hs, hjoins, rfl⟩ := ofSpec_eq_ok h
  obtain ⟨s', joins', hs', hjoins', rfl⟩ := ofSpec_eq_ok h'
  obtain ⟨entity, p, relations, order, selection, pagination, cache, loadRelationIds⟩ := q
  obtain ⟨entity', p', relations', order', selection', pagination', cache', loadRelationIds'⟩ := q'
  simp only [QuerySpec.blank, QuerySpec.mk.injEq] at hblank
  obtain ⟨rfl, hp, rfl, rfl, rfl, rfl, rfl, rfl⟩ := hblank
  obtain rfl : s' = s := Except.ok.inj (hs'.symm.trans hs)
  obtain rfl : joins' = joins := Except.ok.inj (hjoins'.symm.trans hjoins)
  have hcondition :
      (Where.ofPredicate p').fragment.blank = (Where.ofPredicate p).fragment.blank := by
    rw [← Where.blank_ofPredicate p', hp, Where.blank_ofPredicate]
  rw [text, text, Fragment.text, Fragment.text, ← textAfter_blank, ← textAfter_blank (fragment _)]
  simp only [fragment, blank_append, hcondition]

/-! ### What is read -/

/-- What is read in the text of a statement for a specification on the shape `s`. -/
structure Select.Reads (stmt : Select) (q : QuerySpec) (s : Shape) (ts : List Token) : Prop where
  /-- All quotes are closed. -/
  lex : lex stmt.text = some ts
  names : ts.filterMap Token.name? = q.names s stmt.joins
  /-- Every placeholder is there once, in the order of the numbers. -/
  parameters : ts.filterMap Token.parameter? = List.range' 1 stmt.operands.length
  operands : stmt.operands = q.predicate.leaves.flatMap Leaf.operands
  /-- The placeholders of a leaf refer to its own operands. -/
  own : ∀ before l after, q.predicate.leaves = before ++ l :: after →
    let n := (before.flatMap Leaf.operands).length
    ∃ ts₁ own ts₂, ts = ts₁ ++ own ++ ts₂ ∧ Sql.lex (l.test.fragment.textAfter n) = some own ∧
      own.filterMap Token.parameter? = List.range' (n + 1) l.operands.length ∧
      (stmt.operands.drop n).take l.operands.length = l.operands

theorem Select.carries_leaves {σ : Schema} {q : QuerySpec} {stmt : Select}
    (h : ofSpec σ q = .ok stmt) :
    Carries (q.predicate.leaves.map fun l => l.test.fragment) stmt.fragment := by
  have hcarries := stmt.carries_fragment
  obtain ⟨_, _, _, _, rfl⟩ := ofSpec_eq_ok h
  rwa [Where.tests_ofPredicate, List.map_map] at hcarries

/-- The operands of a statement are those of the leaves, one leaf after the other. -/
theorem Select.operands_of_ofSpec {σ : Schema} {q : QuerySpec} {stmt : Select}
    (h : ofSpec σ q = .ok stmt) :
    stmt.operands = q.predicate.leaves.flatMap Leaf.operands := by
  rw [operands, (carries_leaves h).operands_eq, List.flatMap_map]
  simp only [Leaf.operands_test]

/-- The text of a statement is read back with the names that it was made of and with its
placeholders in order, each of which refers to an operand of the leaf that it stands for. Another
specification that differs in the values of its operands only has the same text. -/
theorem Select.reads_of_ofSpec {σ : Schema} {q : QuerySpec} {stmt : Select}
    (h : ofSpec σ q = .ok stmt) :
    (∃ s ts, σ.shape q.entity = .ok s ∧ joinsOf σ s "" q.relations = .ok stmt.joins ∧
      stmt.Reads q s ts) ∧
    ∀ q' stmt', ofSpec σ q' = .ok stmt' → q'.blank = q.blank → stmt'.text = stmt.text := by
  refine ⟨?_, fun q' stmt' h' hblank => text_eq_of_blank h h' hblank⟩
  obtain ⟨s, hs, hjoins, hnames⟩ := names_of_ofSpec h
  have hspaced := stmt.spaced_fragment
  have hcarries := carries_leaves h
  refine ⟨s, stmt.fragment.tokens 0, hs, hjoins, lex_textAfter hspaced 0, ?_,
    filterMap_parameter?_tokens hspaced 0, operands_of_ofSpec h, ?_⟩
  · rw [filterMap_name?_tokens hspaced, hnames]
  · intro before l after hleaves n
    rw [hleaves, List.map_append, List.map_cons] at hcarries
    obtain ⟨f₁, f₂, hfragment, hbefore⟩ := hcarries.split
    have hn : f₁.operands.length = n := by
      rw [hbefore, List.flatMap_map]
      simp only [Leaf.operands_test]
      rfl
    have hspaced' := l.test.spaced_fragment
    refine ⟨f₁.tokens 0, l.test.fragment.tokens n, f₂.tokens (n + l.operands.length), ?_,
      lex_textAfter hspaced' n, ?_, ?_⟩
    · rw [hfragment, tokens_append, tokens_append, operands_append, List.length_append, hn,
        Leaf.operands_test, Nat.zero_add, Nat.zero_add]
    · rw [filterMap_parameter?_tokens hspaced', Leaf.operands_test]
    · rw [operands_of_ofSpec h, hleaves, List.flatMap_append, List.flatMap_cons, List.drop_left,
        List.take_left]

/-- Quotes, dollars and keywords in a name are read back as parts of the name. -/
theorem Select.reads_quoted_names :
    ∃ (σ : Schema) (q : QuerySpec) (stmt : Select) (ts : List Token),
      σ = .ofList [⟨"Log", "log\"$9", "id", [⟨"a\" OR \"b", .scalar⟩]⟩] ∧
      q.predicate = .any
        [[("a\" OR \"b", .op (.not (.between (.int 1) (.int 2))))],
          [("a\" OR \"b", .op (.oneOf [.string "x", .null]))]] ∧
      ofSpec σ q = .ok stmt ∧ lex stmt.text = some ts ∧
      ts.filterMap Token.name? =
        ["root", "log\"$9", "root", "root", "a\" OR \"b", "root", "a\" OR \"b"] ∧
      ts.filterMap Token.parameter? = [1, 2, 3, 4] := by
  let p : Predicate := .any
    [[("a\" OR \"b", .op (.not (.between (.int 1) (.int 2))))],
      [("a\" OR \"b", .op (.oneOf [.string "x", .null]))]]
  let q : QuerySpec := { QuerySpec.all "Log" with predicate := p }
  let σ : Schema := .ofList [⟨"Log", "log\"$9", "id", [⟨"a\" OR \"b", .scalar⟩]⟩]
  obtain ⟨stmt, hstmt⟩ : ∃ stmt, ofSpec σ q = .ok stmt := exists_ok_of_isSome (by decide +kernel)
  obtain ⟨⟨s, ts, hs, hjoins, hreads⟩, _⟩ := reads_of_ofSpec hstmt
  refine ⟨σ, q, stmt, ts, rfl, rfl, hstmt, hreads.lex, ?names, ?parameters⟩
  case names =>
    have hshape : σ.shape "Log" = .ok ⟨"Log", "log\"$9", "id", [⟨"a\" OR \"b", .scalar⟩]⟩ := by
      rfl
    have htable : s.table = "log\"$9" := by
      cases hs.symm.trans hshape
      rfl
    have hnojoins : stmt.joins = [] := (Except.ok.inj hjoins).symm
    rw [hreads.names, QuerySpec.names, htable, hnojoins]
    rfl
  case parameters =>
    rw [hreads.parameters, hreads.operands]
    rfl

end Sql

end RowQuery
