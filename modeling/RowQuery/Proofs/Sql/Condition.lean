import Mathlib.Data.List.Induction
import RowQuery.Proofs.Path
import RowQuery.Proofs.Sql.Clause

/-!
# The condition of a statement

The condition of a statement has the boolean structure of its predicate: the alternatives, and in
each of them its leaves (`readCondition_of_ofSpec`). Every test is one term of the condition, so
that names and ranges take no part in the structure.
-/

namespace RowQuery

namespace Sql

open Fragment

/-! ### Tests -/

/-- How a test is read that stands behind `n` operands. -/
def Test.formula (n : Nat) : Test → Formula
  | .constant b => .constant b
  | .not t => .not (t.formula n)
  | t => .atom (t.fragment.tokens n)

def Piece.isFixed : Piece → Bool
  | text _ => true
  | name _ | operand _ => false

namespace Fragment

/-- Whether the fragment is a part of a term, without connectives and parentheses. -/
def isPart (f : Fragment) : Bool := f.allText fun t => t.role = .part

theorem role_of_mem_tokens {f : Fragment} (hf : f.isPart = true) (n : Nat) :
    ∀ t ∈ f.tokens n, t.role = .part := by
  intro t ht
  simpa using all_tokens (fun _ => rfl) (fun _ => rfl) hf n t ht

end Fragment

/-- A fragment without connectives that begins with a name or a placeholder is an atom. -/
theorem ReadsTerm.of_isPart {p : Piece} {f : Fragment} (hf : isPart (p :: f) = true)
    (hp : p.isFixed = false) (n : Nat) :
    ReadsTerm (tokens n (p :: f)) (.atom (tokens n (p :: f))) := by
  have hparts := Shifts.parts (role_of_mem_tokens hf n)
  cases p with
  | text s => cases hp
  | name s => exact of_shifts hparts rfl
  | operand v => exact of_shifts hparts rfl

namespace Test

/-- The test is read as one term. -/
def IsTerm (t : Test) : Prop := ∀ n, ReadsTerm (t.fragment.tokens n) (t.formula n)

theorem isTerm_compare (c : Column) (s : Sign) (v : Value) : (compare c s v).IsTerm :=
  ReadsTerm.of_isPart (by cases s <;> rfl) rfl

theorem isTerm_null (negated : Bool) (c : Column) : (null negated c).IsTerm :=
  ReadsTerm.of_isPart (by cases negated <;> rfl) rfl

theorem isTerm_like (c : Column) (ignoreCase : Bool) (pattern : String) :
    (like c ignoreCase pattern).IsTerm :=
  ReadsTerm.of_isPart (by cases ignoreCase <;> rfl) rfl

theorem isTerm_overlap (c : Column) (vs : List Value) : (overlap c vs).IsTerm := by
  have hvs : (operandList vs).isPart = true := allText_operandList rfl vs
  have hf : (overlap c vs).fragment.isPart = true :=
    allText_append (allText_append (g := .text " && ARRAY[" :: _) rfl hvs) rfl
  exact ReadsTerm.of_isPart hf rfl

theorem isTerm_constant (b : Bool) : (constant b).IsTerm := by
  intro n
  cases b with
  | false => exact ⟨[.token (.word "FALSE")], .token rfl, rfl⟩
  | true => exact ⟨[.token (.word "TRUE")], .token rfl, rfl⟩

theorem isTerm_between (c : Column) (low high : Value) : (between c low high).IsTerm := by
  intro n
  have hcolumn := Shifts.parts (role_of_mem_tokens (f := c.fragment) rfl n)
  have hrange := Shifts.between (t := .parameter (n + 1)) (u := .parameter (n + 2)) rfl rfl
  exact ReadsTerm.of_shifts (hcolumn.append hrange) rfl

theorem isTerm_element (v : Value) (c : Column) : (element v c).IsTerm := by
  intro n
  have hcolumn := ReadsTerm.of_isPart (p := .name c.table) (f := [.text ".", .name c.field]) rfl rfl
    (n + 1)
  have hhead : ∀ t ∈ [Token.parameter (n + 1), .symbol '=', .word "ANY"], t.role = .part := by
    simp [Token.role]
  exact ReadsTerm.call hhead rfl hcolumn.alternatives

theorem isTerm_oneOf (negated : Bool) (c : Column) (v : Value) (vs : List Value) :
    (oneOf negated c (v :: vs)).IsTerm := by
  intro n
  have hvs : (operandList (v :: vs)).isPart = true := allText_operandList rfl _
  -- the list is read at a level of its own, where it is one atom
  have hlist : ∃ f, ReadsTerm ((operandList (v :: vs)).tokens n) f := by
    cases vs with
    | nil => exact ⟨_, .of_isPart hvs rfl n⟩
    | cons v' vs => exact ⟨_, .of_isPart hvs rfl n⟩
  obtain ⟨f, hf⟩ := hlist
  have htokens (s : String) :
      tokens n (c.fragment ++ .text s :: operandList (v :: vs) ++ [.text ")"]) =
        tokens n (c.fragment ++ .text s :: operandList (v :: vs)) ++ [.symbol ')'] :=
    tokens_append n
  have hcolumn : ∀ t ∈ c.fragment.tokens n, t.role = .part := role_of_mem_tokens rfl n
  show ReadsTerm ((oneOf negated c (v :: vs)).fragment.tokens n) (.atom _)
  rw [fragment, htokens]
  cases negated with
  | false =>
    have hhead : ∀ t ∈ c.fragment.tokens n ++ [.word "IN"], t.role = .part := by
      simpa [Token.role, or_imp, forall_and] using hcolumn
    exact ReadsTerm.call hhead rfl hf.alternatives
  | true =>
    have hhead : ∀ t ∈ c.fragment.tokens n ++ [.word "NOT", .word "IN"], t.role = .part := by
      simpa [Token.role, or_imp, forall_and] using hcolumn
    exact ReadsTerm.call hhead rfl hf.alternatives

theorem isTerm_negate {t : Test} (h : t.IsTerm) (negated : Bool) : (negate negated t).IsTerm := by
  cases negated with
  | false => exact h
  | true =>
    intro n
    have htokens : (not t).fragment.tokens n =
        .word "NOT" :: (.symbol '(' :: t.fragment.tokens n ++ [.symbol ')']) := by
      have happend : (not t).fragment.tokens n = tokens n (.text "NOT (" :: t.fragment) ++
          [.symbol ')'] := tokens_append n
      exact happend
    rw [negate, if_pos rfl, htokens]
    -- all that NOT stands before is the group
    exact ⟨_, (Shifts.token rfl).append (h n).alternatives.group, rfl⟩

/-- The test that an operator makes is one term. -/
theorem isTerm_ofOperator (c : Column) (negated : Bool) (o : Operator) :
    (ofOperator c negated o).IsTerm := by
  induction o generalizing negated with
  | equal v =>
    rw [ofOperator]
    split
    · exact isTerm_null negated c
    · exact isTerm_compare c _ v
  | oneOf vs =>
    cases vs with
    | nil => exact isTerm_constant negated
    | cons v vs => exact isTerm_oneOf negated c v vs
  | arrayContainsAny vs =>
    refine isTerm_negate ?_ negated
    cases vs with
    | nil => exact isTerm_constant false
    | cons v vs => exact isTerm_overlap c (v :: vs)
  | between low high => exact isTerm_negate (isTerm_between c low high) negated
  | like p => exact isTerm_negate (isTerm_like c p.ignoreCase p.wildcards) negated
  | arrayContains v => exact isTerm_negate (isTerm_element v c) negated
  | isNull => exact isTerm_null negated c
  | not o ih => exact ih !negated
  | moreThan v | moreThanOrEqual v | lessThan v | lessThanOrEqual v => exact isTerm_compare c _ v

end Test

end Sql

open Sql

/-! ### The structure of a predicate -/

namespace Leaf

/-- The table that the chain of a leaf leads to. -/
def table (l : Leaf) : String :=
  if l.chain = [] then root else aliasOf (FieldPath.joinDots l.chain)

/-- How the test of a leaf is read that stands behind `n` operands. -/
def formula (n : Nat) (l : Leaf) : Formula := l.test.formula n

/-- How the tests of leaves are read one after the other. -/
def formulas : Nat → List Leaf → List Formula
  | _, [] => []
  | n, l :: ls => l.formula n :: formulas (n + l.operands.length) ls

/-- How alternatives are read one after the other. -/
def alternatives : Nat → List (List Leaf) → List Formula
  | _, [] => []
  | n, ls :: lss => .conjunction (formulas n ls) ::
      alternatives (n + (ls.flatMap operands).length) lss

theorem pathOf_chain {chain : List String} (hchain : "" ∉ chain) :
    pathOf chain = FieldPath.joinDots chain ∧ (chain ≠ [] → pathOf chain ≠ "") := by
  induction chain using List.reverseRecOn with
  | nil => exact ⟨rfl, fun h => absurd rfl h⟩
  | append_singleton ks k ih =>
    have hk : k ≠ "" := fun h => hchain (by simp [h])
    obtain ⟨hpath, hne⟩ := ih fun h => hchain (List.mem_append_left [k] h)
    by_cases hks : ks = []
    · subst hks
      have hsingle : pathOf [k] = k := rfl
      exact ⟨hsingle, fun _ => hsingle ▸ hk⟩
    · have hbelow : pathOf (ks ++ [k]) = pathOf ks ++ "." ++ k := by
        rw [pathOf_concat, pathBelow, if_neg (hne hks)]
      refine ⟨by rw [hbelow, hpath, FieldPath.joinDots_concat hks], fun _ h => ?_⟩
      rw [hbelow] at h
      simp at h

/-- A test is made of the leaf's own field, in the table that its keys lead to. -/
theorem column_eq {l : Leaf} (hl : "" ∉ l.chain) : l.column = ⟨l.table, l.field⟩ := by
  obtain ⟨hpath, hne⟩ := pathOf_chain hl
  rw [column, table, tableAt]
  by_cases hchain : l.chain = []
  · rw [if_pos hchain, hchain]
    rfl
  · rw [if_neg hchain, if_neg (hne hchain), hpath]

end Leaf

/-- How the condition of a statement is read, if it has one. -/
def Predicate.formula? : Predicate → Option Formula
  | .all t => if t.leaves.isEmpty then none else some (.conjunction (Leaf.formulas 0 t.leaves))
  | .any ts => some (.disjunction (Leaf.alternatives 0 (ts.map PredicateTree.leaves)))

theorem Leaf.isTerm_test (l : Leaf) : l.test.IsTerm := Test.isTerm_ofOperator _ _ _

namespace Sql

open Fragment

theorem Fragment.tokens_separated {separator : String} {t : Token}
    (h : ∀ n, (Piece.text separator).tokens n = [t]) (n : Nat) (f g : Fragment)
    (fs : List Fragment) :
    tokens n (separated separator (f :: g :: fs)) =
      tokens n f ++ t :: tokens (n + f.operands.length) (separated separator (g :: fs)) := by
  rw [separated_cons_cons, tokens_append, tokens, h]
  rfl

theorem readsConjuncts_conjunction (n : Nat) (l : Leaf) (ls : List Leaf) :
    ReadsConjuncts ((Where.conjunction ((l :: ls).map Leaf.test)).tokens n)
      (Leaf.formulas n (l :: ls)) := by
  induction ls generalizing n l with
  | nil =>
    have hsingle : Where.conjunction [l.test] = l.test.fragment := separated_singleton _ _
    rw [List.map_singleton, hsingle]
    exact (l.isTerm_test n).conjuncts
  | cons l' ls ih =>
    have hand (n : Nat) : (Piece.text " AND ").tokens n = [.word "AND"] := rfl
    have htokens := tokens_separated hand n l.test.fragment l'.test.fragment
      ((ls.map Leaf.test).map Test.fragment)
    rw [l.operands_test] at htokens
    exact htokens ▸ (l.isTerm_test n).conjuncts.append (ih (n + l.operands.length) l')

theorem readsTerm_alternative (n : Nat) (ls : List Leaf) :
    ReadsTerm ((Where.alternative (ls.map Leaf.test)).tokens n)
      (.conjunction (Leaf.formulas n ls)) := by
  match ls with
  | [] => exact Test.isTerm_constant true n
  | [l] => exact l.isTerm_test n
  | l :: l' :: ls =>
    have hconjunction := readsConjuncts_conjunction n l (l' :: ls)
    have htokens : (Where.alternative ((l :: l' :: ls).map Leaf.test)).tokens n =
        .symbol '(' :: (Where.conjunction ((l :: l' :: ls).map Leaf.test)).tokens n ++
          [.symbol ')'] :=
      tokens_append n
    rw [htokens]
    exact ⟨_, hconjunction.alternatives.group, rfl⟩

theorem operands_alternative (ls : List Leaf) :
    (Where.alternative (ls.map Leaf.test)).operands = ls.flatMap Leaf.operands := by
  rw [(Where.carries_alternative _).operands_eq, List.map_map, List.flatMap_map]
  simp only [Function.comp_apply, Leaf.operands_test]

theorem readsAlternatives_any (n : Nat) (ls : List Leaf) (lss : List (List Leaf)) :
    ReadsAlternatives
      ((separated " OR " ((ls :: lss).map fun ls => Where.alternative (ls.map Leaf.test))).tokens n)
      (Leaf.alternatives n (ls :: lss)) := by
  induction lss generalizing n ls with
  | nil =>
    rw [List.map_singleton, separated_singleton]
    exact (readsTerm_alternative n ls).alternatives
  | cons ls' lss ih =>
    have hor (n : Nat) : (Piece.text " OR ").tokens n = [.word "OR"] := rfl
    have htokens := tokens_separated hor n (Where.alternative (ls.map Leaf.test))
      (Where.alternative (ls'.map Leaf.test))
      (lss.map fun ls => Where.alternative (ls.map Leaf.test))
    rw [operands_alternative] at htokens
    exact htokens ▸ (readsTerm_alternative n ls).alternatives.append
      (ih (n + (ls.flatMap Leaf.operands).length) ls')

theorem Select.readCondition_text (s : Select) {p : Predicate}
    (h : s.condition = .ofPredicate p) : readCondition s.text = some p.formula? := by
  cases p with
  | all t =>
    rw [Predicate.formula?]
    cases hls : t.leaves with
    | nil =>
      have hcondition : s.condition.fragment = [] := by rw [h, Where.ofPredicate, hls]; rfl
      rw [readCondition_text_of_nil s hcondition]
      rfl
    | cons l ls =>
      have hcondition : s.condition.fragment =
          .text " WHERE " :: Where.conjunction ((l :: ls).map Leaf.test) := by
        rw [h, Where.ofPredicate, hls, List.map_cons, Where.fragment_all_cons]
      have hread := (readsConjuncts_conjunction 0 l ls).alternatives.read_eq
      rw [readCondition_text_of_cons s hcondition (Where.isInner_conjunction _), hread]
      rfl
  | any ts =>
    cases ts with
    | nil =>
      have hcondition : s.condition.fragment =
          .text " WHERE " :: (Test.constant false).fragment := by rw [h]; rfl
      have hread := (Test.isTerm_constant false 0).alternatives.read_eq
      rw [readCondition_text_of_cons s hcondition rfl, hread]
      rfl
    | cons t ts =>
      have hcondition : s.condition.fragment = .text " WHERE " :: separated " OR "
          ((t.leaves :: ts.map PredicateTree.leaves).map fun ls =>
            Where.alternative (ls.map Leaf.test)) := by
        rw [h, Where.ofPredicate, List.map_cons, Where.fragment_any_cons, List.map_cons,
          List.map_cons, List.map_map, List.map_map]
        rfl
      have hinner : isInner (separated " OR " ((t.leaves :: ts.map PredicateTree.leaves).map
          fun ls => Where.alternative (ls.map Leaf.test))) = true := by
        refine allText_separated rfl fun f hf => ?_
        obtain ⟨ls, _, rfl⟩ := List.mem_map.1 hf
        exact Where.isInner_alternative _
      have hread := (readsAlternatives_any 0 t.leaves (ts.map PredicateTree.leaves)).read_eq
      rw [readCondition_text_of_cons s hcondition hinner, hread]
      rfl

/-- The condition of a statement is read as the boolean structure of the predicate over its leaves.
Each of them is read as its own test is, on the field of the table that its keys lead to; an empty
key would lead back to the selected table. -/
theorem Select.readCondition_of_ofSpec {σ : Schema} {q : QuerySpec} {stmt : Select}
    (h : ofSpec σ q = .ok stmt) (hkeys : ∀ l ∈ q.predicate.leaves, "" ∉ l.chain) :
    readCondition stmt.text = some q.predicate.formula? ∧
      ∀ l ∈ q.predicate.leaves, l.test = .ofOperator ⟨l.table, l.field⟩ false l.operator ∧
        ∀ n, (lex (l.test.fragment.textAfter n)).bind Formula.read = some (l.formula n) := by
  obtain ⟨s, joins, _, _, rfl⟩ := ofSpec_eq_ok h
  refine ⟨readCondition_text _ rfl, fun l hl => ⟨?_, fun n => ?_⟩⟩
  · rw [Leaf.test, Leaf.column_eq (hkeys l hl)]
  · rw [lex_textAfter l.test.spaced_fragment n]
    exact (l.isTerm_test n).alternatives.read_eq

/-- Connectives in names and ranges stay in the tests that they belong to. -/
theorem Select.readCondition_quoted_names :
    ∃ (σ : Schema) (q : QuerySpec) (stmt : Select) (x y : String),
      x = "a AND b" ∧ y = "NOT \"c\" OR d" ∧
      q.predicate = .any
        [[(x, .op (.not (.between (.int 1) (.int 2)))), (y, .nested [(x, .value (.int 3))])],
          [], [(x, .op (.oneOf [.int 4, .int 5]))]] ∧
      ofSpec σ q = .ok stmt ∧
      readCondition stmt.text = some (some (.any [
        .all [
          .not (.atom [.name "root", .symbol '.', .name x, .word "BETWEEN", .parameter 1,
            .word "AND", .parameter 2]),
          .atom [.name ("root." ++ y), .symbol '.', .name x, .symbol '=', .parameter 3]],
        .constant true,
        .atom [.name "root", .symbol '.', .name x, .word "IN", .symbol '(', .parameter 4,
          .symbol ',', .parameter 5, .symbol ')']])) := by
  let x := "a AND b"
  let y := "NOT \"c\" OR d"
  let p : Predicate := .any
    [[(x, .op (.not (.between (.int 1) (.int 2)))), (y, .nested [(x, .value (.int 3))])],
      [], [(x, .op (.oneOf [.int 4, .int 5]))]]
  let q : QuerySpec := { QuerySpec.all "Log" with predicate := p, relations := [(y, .load)] }
  let σ : Schema := .ofList
    [⟨"Log", "logs", "id", [⟨x, .scalar⟩, ⟨y, .relation ⟨"Log", .one, x, x⟩⟩]⟩]
  obtain ⟨stmt, hstmt⟩ : ∃ stmt, ofSpec σ q = .ok stmt := exists_ok_of_isSome (by decide +kernel)
  have hkeys : ∀ l ∈ q.predicate.leaves, "" ∉ l.chain := by decide +kernel
  refine ⟨σ, q, stmt, x, y, rfl, rfl, rfl, hstmt, ?_⟩
  rw [(readCondition_of_ofSpec hstmt hkeys).1]
  rfl

end Sql

end RowQuery
