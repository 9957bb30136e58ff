import RowQuery.Document.Spec
import RowQuery.Proofs.Builder.Operators
import RowQuery.Proofs.Sql.Condition
import RowQuery.Proofs.Sql.Operands

/-!
# Negations and null in translations

Both translations decide by the form of a negated operator what becomes of it. What a builder
negates has a negative form in both, so that no statement has a NOT in front of parentheses and no
document query is refused for a negation (`Reachable.proper_and_direct`). A null operand is left in
lists only.
-/

namespace RowQuery

open Document Sql

namespace Operator

/-- Whether the operator looks into a list. -/
def isList : Operator → Bool
  | oneOf _ | arrayContainsAny _ => true
  | _ => false

theorem Negatable.isNull_operands {o : Operator} (ho : o.Negatable) (hnull : o.NullFree) :
    ∀ v ∈ o.operands, v.isNull = false := by
  cases o with
  | equal v =>
    have hv : v.isNull = false := hnull
    simp [operands, hv]
  | moreThan v | moreThanOrEqual v | lessThan v | lessThanOrEqual v =>
    simpa [operands, NullFree] using hnull
  | isNull => simp [operands]
  | _ => exact ho.elim

theorem Proper.isNull_operands {o : Operator} (ho : o.Proper) (hlist : o.isList = false) :
    ∀ v ∈ o.operands, v.isNull = false := by
  have hnull := ho.nullFree
  cases o with
  | between low high => simpa [operands, NullFree] using hnull
  | like p => simp [operands, Value.isNull]
  | arrayContains v => simpa [operands, NullFree] using hnull
  | oneOf _ | arrayContainsAny _ => cases hlist
  | not o => exact (ho.negatable o rfl).isNull_operands hnull
  | _ => exact Negatable.isNull_operands trivial hnull

end Operator

/-! ### Statements -/

namespace Sql

def Test.isNegation : Test → Bool
  | .not _ => true
  | _ => false

theorem Test.isNegation_negated {o : Operator} (ho : o.Negatable) (c : Column) :
    (ofOperator c true o).isNegation = false := by
  cases o with
  | equal v =>
    unfold ofOperator
    split <;> rfl
  | moreThan _ | moreThanOrEqual _ | lessThan _ | lessThanOrEqual _ | isNull => rfl
  | _ => exact ho.elim

theorem Test.isNegation_ofOperator {o : Operator} (ho : o.Proper) (c : Column) :
    (ofOperator c false o).isNegation = false := by
  cases o with
  | equal v =>
    unfold ofOperator
    split <;> rfl
  | oneOf vs => cases vs <;> rfl
  | arrayContainsAny vs => cases vs <;> rfl
  | not o => exact isNegation_negated (ho.negatable o rfl) c
  | _ => rfl

/-- There is no NOT in the structure of a condition. -/
inductive Formula.NegationFree : Formula → Prop
  | atom (ts : List Token) : NegationFree (.atom ts)
  | constant (b : Bool) : NegationFree (.constant b)
  | all {fs : List Formula} (h : ∀ f ∈ fs, NegationFree f) : NegationFree (.all fs)
  | any {fs : List Formula} (h : ∀ f ∈ fs, NegationFree f) : NegationFree (.any fs)

namespace Formula.NegationFree

variable {fs : List Formula}

theorem conjunction (h : ∀ f ∈ fs, NegationFree f) : (conjunction fs).NegationFree := by
  match fs with
  | [] => exact .constant true
  | [f] => exact h f (.head _)
  | f :: g :: fs => exact .all h

theorem disjunction (h : ∀ f ∈ fs, NegationFree f) : (disjunction fs).NegationFree := by
  match fs with
  | [] => exact .constant false
  | [f] => exact h f (.head _)
  | f :: g :: fs => exact .any h

end Formula.NegationFree

theorem Test.negationFree_formula {t : Test} (ht : t.isNegation = false) (n : Nat) :
    (t.formula n).NegationFree := by
  cases t with
  | not t => cases ht
  | constant b => exact .constant b
  | _ => exact .atom _

end Sql

namespace Leaf

theorem negationFree_formulas {ls : List Leaf} (h : ∀ l ∈ ls, l.test.isNegation = false)
    (n : Nat) : ∀ f ∈ formulas n ls, f.NegationFree := by
  induction ls generalizing n with
  | nil => simp [formulas]
  | cons l ls ih =>
    obtain ⟨hl, hls⟩ := List.forall_mem_cons.1 h
    exact List.forall_mem_cons.2 ⟨Test.negationFree_formula hl n, ih hls _⟩

theorem negationFree_alternatives {lss : List (List Leaf)}
    (h : ∀ ls ∈ lss, ∀ l ∈ ls, l.test.isNegation = false) (n : Nat) :
    ∀ f ∈ alternatives n lss, f.NegationFree := by
  induction lss generalizing n with
  | nil => simp [alternatives]
  | cons ls lss ih =>
    obtain ⟨hls, hlss⟩ := List.forall_mem_cons.1 h
    exact List.forall_mem_cons.2 ⟨.conjunction (negationFree_formulas hls n), ih hlss _⟩

end Leaf

theorem Predicate.negationFree_formula? {p : Predicate}
    (h : ∀ l ∈ p.leaves, l.test.isNegation = false) : ∀ f ∈ p.formula?, f.NegationFree := by
  intro f hf
  cases p with
  | all t =>
    have ht : ∀ l ∈ t.leaves, l.test.isNegation = false := by
      simpa [leaves, alternatives] using h
    rw [formula?] at hf
    split at hf <;> cases hf
    exact .conjunction (Leaf.negationFree_formulas ht 0)
  | any ts =>
    cases hf
    refine .disjunction (Leaf.negationFree_alternatives (fun ls hls l hl => ?_) 0)
    obtain ⟨t, ht, rfl⟩ := List.mem_map.1 hls
    exact h l (List.mem_flatMap.2 ⟨t, ht, hl⟩)

/-- What the statement for a predicate says without a NOT and without comparing with null. -/
structure Sql.Select.Direct (stmt : Select) (p : Predicate) : Prop where
  tests : ∀ t ∈ stmt.condition.tests, t.isNegation = false
  /-- No NOT is read in the condition, except as part of a test. -/
  condition : ∃ f?, readCondition stmt.text = some f? ∧ ∀ f ∈ f?, f.NegationFree
  operands : stmt.operands = p.leaves.flatMap Leaf.operands
  nonnull : ∀ l ∈ p.leaves, l.operator.isList = false → ∀ v ∈ l.operands, v.isNull = false

theorem Sql.Select.direct_of_proper {σ : Schema} {q : QuerySpec} {stmt : Select}
    (h : Select.ofSpec σ q = .ok stmt) (hproper : ∀ l ∈ q.predicate.leaves, l.operator.Proper) :
    stmt.Direct q.predicate := by
  have hleaves : ∀ l ∈ q.predicate.leaves, l.test.isNegation = false :=
    fun l hl => Test.isNegation_ofOperator (hproper l hl) l.column
  have hcondition : stmt.condition = .ofPredicate q.predicate := by
    obtain ⟨_, _, _, _, rfl⟩ := ofSpec_eq_ok h
    rfl
  exact
    { tests := by simpa [hcondition, Where.tests_ofPredicate] using hleaves
      condition := ⟨_, readCondition_text stmt hcondition, Predicate.negationFree_formula? hleaves⟩
      operands := operands_of_ofSpec h
      nonnull := fun l hl hlist => (hproper l hl).isNull_operands hlist }

/-! ### Document queries -/

theorem Shape.requireField_ne_unsupported (s : Shape) (name : String) (limitation : Limitation) :
    s.requireField name ≠ .error (.unsupported limitation) := by
  unfold requireField
  split <;> nofun

theorem Shape.requireFields_ne_unsupported (s : Shape) (names : List String)
    (limitation : Limitation) : s.requireFields names ≠ .error (.unsupported limitation) := by
  induction names with
  | nil => nofun
  | cons name names ih =>
    exact bind_ne_error (s.requireField_ne_unsupported name limitation) fun _ _ => ih

theorem Schema.shape_ne_unsupported (σ : Schema) (entity : String) (limitation : Limitation) :
    σ.shape entity ≠ .error (.unsupported limitation) := by
  unfold shape
  split <;> nofun

namespace Document

theorem Filter.exists_negated {o : Operator} (ho : o.Negatable) (field : String) :
    ∃ f, ofOperator field true o = .ok f := by
  cases o with
  | equal v =>
    unfold ofOperator
    split <;> exact ⟨_, rfl⟩
  | moreThan _ | moreThanOrEqual _ | lessThan _ | lessThanOrEqual _ | isNull => exact ⟨_, rfl⟩
  | _ => exact ho.elim

/-- What is refused of a proper operator is a pattern or an empty list. -/
theorem Filter.ofOperator_ne_negation {o : Operator} (ho : o.Proper) (field kind : String) :
    ofOperator field false o ≠ .error (.unsupported (.negation kind)) := by
  cases o with
  | equal v =>
    unfold ofOperator
    split <;> nofun
  | like p => exact bind_ne_error nofun fun _ _ => bind_ne_error (refuseIf_ne_error nofun) nofun
  | oneOf vs => cases vs <;> nofun
  | arrayContainsAny vs =>
    exact bind_ne_error nofun fun _ _ => bind_ne_error (refuseIf_ne_error nofun) nofun
  | not o =>
    obtain ⟨f, hf⟩ := exists_negated (ho.negatable o rfl) field
    rw [ofOperator, Bool.not_false, hf]
    nofun
  | _ => nofun

variable {s : Shape}

theorem Filter.ofCondition_ne_negation {c : Condition} (hc : c.Every Operator.Proper)
    (key kind : String) : ofCondition s key c ≠ .error (.unsupported (.negation kind)) := by
  refine bind_ne_error (s.requireField_ne_unsupported key _) fun field _ => ?_
  cases c with
  | value v => exact ofOperator_ne_negation hc key kind
  | op o => exact ofOperator_ne_negation hc key kind
  | nested t =>
    intro h
    have hlimitation := QueryError.unsupported.inj (Except.error.inj h)
    split at hlimitation <;> cases hlimitation

theorem Filter.ofTree_ne_negation {t : PredicateTree} (ht : PredicateTree.Every Operator.Proper t)
    (kind : String) : ofTree s t ≠ .error (.unsupported (.negation kind)) :=
  mapM_ne_error fun e he => ofCondition_ne_negation (PredicateTree.every_iff.1 ht e he) e.1 kind

theorem Filter.ofPredicate_ne_negation {p : Predicate}
    (hp : ∀ t ∈ p.alternatives, PredicateTree.Every Operator.Proper t) (kind : String) :
    ofPredicate s p ≠ .error (.unsupported (.negation kind)) := by
  cases p with
  | all t => exact bind_ne_error (ofTree_ne_negation (hp t (.head _)) kind) nofun
  | any ts =>
    refine bind_ne_error (mapM_ne_error fun t ht => ?_) nofun
    exact bind_ne_error (ofTree_ne_negation (hp t ht) kind) nofun

theorem Query.ofSpec_ne_negation {q : QuerySpec}
    (hq : ∀ t ∈ q.predicate.alternatives, PredicateTree.Every Operator.Proper t) (σ : Schema)
    (kind : String) : ofSpec σ q ≠ .error (.unsupported (.negation kind)) := by
  refine bind_ne_error (σ.shape_ne_unsupported _ _) fun s _ => ?_
  refine bind_ne_error (Filter.ofPredicate_ne_negation hq kind) fun _ _ => ?_
  refine bind_ne_error (refuseIf_ne_error nofun) fun _ _ => ?_
  refine bind_ne_error (refuseIf_ne_error nofun) fun _ _ => ?_
  refine bind_ne_error (s.requireFields_ne_unsupported _ _) fun _ _ => ?_
  exact bind_ne_error (s.requireFields_ne_unsupported _ _) nofun

end Document

/-! ### What leaves a builder -/

namespace Builder

/-- Whatever leaves a builder, in every alternative and at every depth it neither compares with null
nor negates what has no negative form. It tests membership once if that closed the chain, and then
has no alternatives, and never otherwise. With no schema does its statement have a NOT or compare
with null, and with none is it refused as a document query for a negation. -/
theorem Reachable.proper_and_direct {σ : Schema} {b : Builder σ} (hb : b.Reachable) :
    b.Every Operator.Proper ∧
      b.spec.predicate.memberships = (if b.stage = .closed .whereIn then 1 else 0) ∧
      (b.stage = .closed .whereIn → ∃ t, b.spec.predicate = .all t) ∧
      (∀ (τ : Schema) stmt, Select.ofSpec τ b.spec = .ok stmt → stmt.Direct b.spec.predicate) ∧
      ∀ (τ : Schema) kind,
        Document.Query.ofSpec τ b.spec ≠ .error (.unsupported (.negation kind)) :=
  ⟨hb.proper, hb.membershipCloses.memberships_eq,
    fun hs => (hb.membershipCloses.whereIn hs).2.imp fun _ => And.left,
    fun _ _ hstmt => Select.direct_of_proper hstmt hb.proper.leaves,
    fun τ kind => Document.Query.ofSpec_ne_negation hb.proper τ kind⟩

/-- Half a range, a negated comparison below a relation, and a list with a null in it. -/
theorem articles_proper_and_direct :
    ∃ (b₀ b : Builder .articles) (stmt : Select), new .articles "Article" = .ok b₀ ∧
      b₀.applyAll
        [.filter "title" (.between .null (.string "m")),
          .join "author" [.filter "name" (.compare .notGt (.string "x"))],
          .oneOf "author.team.name" [.string "core", .null]] = .ok b ∧
      b.Reachable ∧ b.Every Operator.Proper ∧ b.spec.predicate.memberships = 1 ∧
      (∃ t, b.spec.predicate = .all t) ∧ Select.ofSpec .articles b.spec = .ok stmt ∧
      stmt.operands.map Value.isNull = [false, false, true, false] ∧
      stmt.Direct b.spec.predicate ∧
      ∀ kind, Document.Query.ofSpec .articles b.spec ≠ .error (.unsupported (.negation kind)) := by
  obtain ⟨r, hr, hends⟩ := exists_ok_of_any
    (x := do
      let b₀ ← new .articles "Article"
      let b ← b₀.applyAll
        [.filter "title" (.between .null (.string "m")),
          .join "author" [.filter "name" (.compare .notGt (.string "x"))],
          .oneOf "author.team.name" [.string "core", .null]]
      return (b, ← Select.ofSpec .articles b.spec))
    (p := fun r => r.1.stage = .closed .whereIn ∧
      r.2.operands.map Value.isNull = [false, false, true, false])
    (by decide +kernel)
  obtain ⟨b₀, h₀, hr⟩ := bind_eq_ok.1 hr
  obtain ⟨b, h, hr⟩ := bind_eq_ok.1 hr
  obtain ⟨stmt, hstmt, hr⟩ := bind_eq_ok.1 hr
  cases hr
  obtain ⟨hstage, hoperands⟩ := of_decide_eq_true hends
  have hreachable : b.Reachable := (Reachable.new h₀).applyAll h
  obtain ⟨hproper, hcount, hall, hdirect, hnegation⟩ := hreachable.proper_and_direct
  rw [if_pos hstage] at hcount
  exact ⟨b₀, b, stmt, h₀, h, hreachable, hproper, hcount, hall hstage, hstmt, hoperands,
    hdirect _ _ hstmt, hnegation _⟩

end Builder

end RowQuery
