import RowQuery.Proofs.Builder.Operators
import RowQuery.Proofs.Document.Meaning
import RowQuery.Proofs.Sql.Leaves

/-!
# What a statement says of a row

A database decides comparisons for itself. All that is asked of it here is that null makes them
unknown and that values of one type are compared as documents are; the rest of a condition is put
together in three-valued logic.

For what a builder can ask of one table, a database and a document store select the same rows
(`isMet_iff_selects`), as long as no row lacks a value that is looked up in a list with a null in
it: the store finds the missing value there, and a database finds no null anywhere.
-/

namespace RowQuery

open Document

/-! ### Databases -/

namespace Sql

/-- The tests that a database decides for itself, on the value of a column. -/
structure Engine where
  compare : Sign → Json → Value → Truth
  between : Json → Value → Value → Truth
  like : Json → (ignoreCase : Bool) → (pattern : String) → Truth
  element : Json → Value → Truth
  overlap : Json → List Value → Truth

/-- Two truth values, two numbers or two texts. -/
def SameType : Json → Json → Prop
  | .bool _, .bool _ | .num _, .num _ | .str _, .str _ => True
  | _, _ => False

/-- What a comparison says of two values of one type. -/
def Sign.holds (x y : Json) : Sign → Bool
  | eq => equalValues x y
  | ne => !equalValues x y
  | lt => (compareWithin? x y).any (· == .lt)
  | le => (compareWithin? x y).any Ordering.isLE
  | gt => (compareWithin? x y).any (· == .gt)
  | ge => (compareWithin? x y).any Ordering.isGE

/-- What statements count on. -/
structure Engine.Standard (e : Engine) : Prop where
  compare_null : ∀ s x v, x.isNull = true ∨ v.isNull = true → e.compare s x v = .unknown
  compare_same : ∀ s x v, SameType x v.toJson → e.compare s x v = .ofBool (s.holds x v.toJson)
  between_null : ∀ x low high, x.isNull = true ∨ low.isNull = true ∨ high.isNull = true →
    e.between x low high = .unknown
  between_same : ∀ x low high, SameType x low.toJson → SameType x high.toJson →
    e.between x low high = .ofBool (Sign.ge.holds x low.toJson && Sign.le.holds x high.toJson)

/-- A database that compares as a document store does, and searches neither patterns nor arrays. -/
def Engine.reference : Engine where
  compare s x v := if x.isNull || v.isNull then .unknown else .ofBool (s.holds x v.toJson)
  between x low high :=
    if x.isNull || low.isNull || high.isNull then .unknown
    else .ofBool (Sign.ge.holds x low.toJson && Sign.le.holds x high.toJson)
  like _ _ _ := .unknown
  element _ _ := .unknown
  overlap _ _ := .unknown

/-- The value of a column in a row of the selected table; what is missing there is null. -/
def columnOf (row : Json) (c : Column) : Json :=
  if c.table = root then fieldOf row c.field else .null

/-- The truth of a test, given the values of the columns. A membership test is a disjunction of
equalities. -/
def Test.truth (e : Engine) (value : Column → Json) : Test → Truth
  | compare c s v => e.compare s (value c) v
  | null negated c => (Truth.ofBool (value c).isNull).signed negated
  | between c low high => e.between (value c) low high
  | like c ignoreCase pattern => e.like (value c) ignoreCase pattern
  | oneOf negated c vs => (Truth.any (vs.map (e.compare .eq (value c)))).signed negated
  | element v c => e.element (value c) v
  | overlap c vs => e.overlap (value c) vs
  | constant b => .ofBool b
  | not t => (t.truth e value).not

/-- Without a condition every row is selected. -/
def Where.truth (e : Engine) (value : Column → Json) : Where → Truth
  | all tests => .all (tests.map (Test.truth e value))
  | any alternatives => .any (alternatives.map fun tests => .all (tests.map (Test.truth e value)))

/-! ### Values of one type -/

section SameType

variable {x y : Json} {v : Value}

theorem SameType.left (h : SameType x y) : x.isNull = false := by
  cases x with
  | null => exact h.elim
  | _ => rfl

theorem SameType.right (h : SameType x v.toJson) : v.isNull = false := by
  cases v with
  | null => cases x <;> exact h.elim
  | _ => rfl

theorem Engine.standard_reference : Engine.reference.Standard where
  compare_null s x v h := by
    have hnull : (x.isNull || v.isNull) = true := by simpa using h
    exact if_pos hnull
  compare_same s x v h := by
    have hnull : (x.isNull || v.isNull) = false := by simp [h.left, h.right]
    exact if_neg (by simp [hnull])
  between_null x low high h := by
    have hnull : (x.isNull || low.isNull || high.isNull) = true := by simpa [or_assoc] using h
    exact if_pos hnull
  between_same x low high hlow hhigh := by
    have hnull : (x.isNull || low.isNull || high.isNull) = false := by
      simp [hlow.left, hlow.right, hhigh.right]
    exact if_neg (by simp [hnull])

end SameType

end Sql

open Sql

/-! ### Operators that both can test -/

namespace Operator

/-- The operator looks neither for a pattern nor into an array, and its floats are finite. -/
def Elementary : Operator → Prop
  | equal v | moreThan v | moreThanOrEqual v | lessThan v | lessThanOrEqual v => v.Finite
  | between low high => low.Finite ∧ high.Finite
  | oneOf vs => ∀ v ∈ vs, v.Finite
  | isNull => True
  | like _ | arrayContains _ | arrayContainsAny _ => False
  | not o => o.Elementary

/-- The value is null or of the type of the operands. -/
def Typed (x : Json) (o : Operator) : Prop :=
  x.isNull = true ∨ ∀ v ∈ o.operands, v.isNull = true ∨ SameType x v.toJson

/-- The operator tests no membership. -/
def NoMembership : Operator → Prop
  | oneOf _ => False
  | not o => o.NoMembership
  | _ => True

/-- A membership test is not negated. -/
def PositiveMembership : Operator → Prop
  | oneOf _ => True
  | o => o.NoMembership

end Operator

theorem Operator.Written.positiveMembership {o : Operator} (h : o.Written) :
    o.PositiveMembership := by
  cases h with
  | compare c _ => cases c <;> trivial
  | _ => trivial

/-- Only `Builder.oneOf` writes a membership test, and it is not negated there. -/
theorem Builder.Reachable.positiveMembership {σ : Schema} {b : Builder σ} (hb : b.Reachable) :
    ∀ l ∈ b.spec.predicate.leaves, l.operator.PositiveMembership := by
  have hevery : b.Every Operator.PositiveMembership :=
    hb.every_of_written (fun _ => Operator.Written.positiveMembership) fun _ => trivial
  exact hevery.leaves

theorem Operator.NoMembership.nullApart {o : Operator} (h : o.NoMembership) (ho : o.Elementary)
    (x : Json) : o.NullApart x := by
  induction o with
  | equal v => exact fun hv _ => Value.isNull_toJson hv ho
  | oneOf vs => exact h.elim
  | like p => exact ho.elim
  | not o ih => exact ih h ho
  | _ => trivial

theorem Operator.Elementary.nullApart {o : Operator} {x : Json} (ho : o.Elementary)
    (hlist : ∀ vs, o = .oneOf vs → x.isNull = true → ∀ v ∈ vs, v.isNull = false)
    (hmem : o.PositiveMembership) : o.NullApart x := by
  cases o with
  | oneOf vs => exact fun hx v hv => Value.isNull_toJson (hlist vs rfl hx v hv) (ho v hv)
  | _ => exact NoMembership.nullApart hmem ho x

/-! ### Tests of one column -/

namespace Sql

section Engine

variable {e : Engine} (he : e.Standard) {x : Json} {v : Value}
include he

/-- With null there is neither an answer nor an order. -/
theorem compare_eq_holds {s : Sign} {p : Ordering → Bool}
    (hs : s.holds x v.toJson = (compareWithin? x v.toJson).any p)
    (hv : x.isNull = true ∨ v.isNull = true ∨ SameType x v.toJson) :
    e.compare s x v = .holds ↔ (compareWithin? x v.toJson).any p = true := by
  rcases hv with hx | hv | hsame
  · rw [he.compare_null s x v (.inl hx), Json.eq_null_of_isNull hx]
    simp [compareWithin?]
  · rw [he.compare_null s x v (.inr hv), Value.toJson_of_isNull hv]
    cases x <;> simp [compareWithin?]
  · rw [he.compare_same s x v hsame, Truth.ofBool_eq_holds, hs]

theorem compare_ordered {s opposite : Sign} {p : Ordering → Bool}
    (hs : s.holds x v.toJson = (compareWithin? x v.toJson).any p)
    (hopposite : opposite.holds x v.toJson = (compareWithin? x v.toJson).any fun o => !p o)
    (hv : x.isNull = true ∨ v.isNull = true ∨ SameType x v.toJson) (negated : Bool) :
    e.compare (if negated then opposite else s) x v = .holds ↔
      (x.ordered v.toJson p).signed negated = .holds := by
  cases negated with
  | false =>
    rw [Truth.signed_false, Json.ordered_eq_holds]
    exact compare_eq_holds he hs hv
  | true =>
    rw [Truth.signed_true, Truth.not_eq_holds, Json.ordered_eq_fails]
    exact compare_eq_holds he hopposite hv

theorem compare_equality (hnull : v.isNull = false)
    (hv : x.isNull = true ∨ SameType x v.toJson) (negated : Bool) :
    e.compare (if negated then .ne else .eq) x v = (Operator.equality x v).signed negated := by
  rcases hv with hx | hsame
  · have hunknown : Operator.equality x v = .unknown := by simp [Operator.equality, hnull, hx]
    rw [he.compare_null _ x v (.inl hx), hunknown]
    cases negated <;> rfl
  · have hdecided : Operator.equality x v = .ofBool (equalValues x v.toJson) := by
      simp [Operator.equality, hnull, hsame.left]
    rw [he.compare_same _ x v hsame, hdecided]
    cases negated with
    | false => rfl
    | true => exact (Truth.not_ofBool _).symm

/-- A null in the list makes no value equal to it. -/
theorem any_compare_eq_holds {vs : List Value}
    (hvs : x.isNull = true ∨ ∀ v ∈ vs, v.isNull = true ∨ SameType x v.toJson) :
    Truth.any (vs.map (e.compare .eq x)) = .holds ↔ Operator.membership x vs = .holds := by
  rw [Truth.any_eq_holds, List.mem_map]
  by_cases hx : x.isNull = true
  · have hunknown : Operator.membership x vs = .unknown := by simp [Operator.membership, hx]
    rw [hunknown]
    constructor
    · rintro ⟨v, _, h⟩
      rw [he.compare_null .eq x v (.inl hx)] at h
      cases h
    · intro h
      cases h
  · have hdecided :
        Operator.membership x vs = .ofBool (vs.any fun v => equalValues x v.toJson) := by
      simp [Operator.membership, hx]
    rw [hdecided, Truth.ofBool_eq_holds, List.any_eq_true]
    refine exists_congr fun v => and_congr_right fun hmem => ?_
    rcases hvs.resolve_left hx v hmem with hv | hsame
    · have hother : equalValues x v.toJson = false := by
        rw [Value.toJson_of_isNull hv]
        cases x <;> simp_all [equalValues, Json.isNull, Json.same]
      rw [he.compare_null .eq x v (.inr hv), hother]
      simp
    · rw [he.compare_same .eq x v hsame, Truth.ofBool_eq_holds, Sign.holds]

theorem between_eq_holds {low high : Value}
    (hv : x.isNull = true ∨ ∀ v ∈ [low, high], v.isNull = true ∨ SameType x v.toJson) :
    e.between x low high = .holds ↔ (Operator.between low high).truth x = .holds := by
  have hbounds : (Operator.between low high).truth x = .holds ↔
      Sign.ge.holds x low.toJson = true ∧ Sign.le.holds x high.toJson = true := by
    rw [Operator.truth, Truth.and_eq_holds, Json.ordered_eq_holds, Json.ordered_eq_holds]
    rfl
  rw [hbounds]
  by_cases hnull : x.isNull = true ∨ low.isNull = true ∨ high.isNull = true
  · rw [he.between_null x low high hnull]
    rcases hnull with hx | hlow | hhigh
    · simp [Json.eq_null_of_isNull hx, Sign.holds, compareWithin?]
    · cases x <;> simp [Value.toJson_of_isNull hlow, Sign.holds, compareWithin?]
    · cases x <;> simp [Value.toJson_of_isNull hhigh, Sign.holds, compareWithin?]
  · obtain ⟨hx, hlow, hhigh⟩ : ¬x.isNull = true ∧ ¬low.isNull = true ∧ ¬high.isNull = true := by
      simpa [not_or] using hnull
    have hsame := hv.resolve_left hx
    rw [he.between_same x low high ((hsame low (by simp)).resolve_left hlow)
      ((hsame high (by simp)).resolve_left hhigh), Truth.ofBool_eq_holds, Bool.and_eq_true]

end Engine

/-- What the test of an operator says of a column is what the operator says of its value, for an
operator that a document store takes. -/
theorem Test.truth_ofOperator {e : Engine} (he : e.Standard) {value : Column → Json} {c : Column}
    {field : String} {negated : Bool} {f : Document.Filter} {o : Operator}
    (h : Document.Filter.ofOperator field negated o = .ok f) (ho : o.Elementary)
    (htyped : o.Typed (value c))
    (hmem : o.NoMembership ∨ negated = false ∧ o.PositiveMembership) :
    (ofOperator c negated o).truth e value = .holds ↔
      (o.truth (value c)).signed negated = .holds := by
  induction o generalizing negated f with
  | equal v =>
    by_cases hv : v.isNull = true
    · have htest : ofOperator c negated (.equal v) = .null negated c := if_pos hv
      rw [htest, Operator.truth, Operator.equality, if_pos hv]
      rfl
    · have htest : ofOperator c negated (.equal v) = .compare c (if negated then .ne else .eq) v :=
        if_neg hv
      have hv : v.isNull = false := by simpa using hv
      have hsame : (value c).isNull = true ∨ SameType (value c) v.toJson := by
        simpa [Operator.Typed, Operator.operands, hv] using htyped
      rw [htest, Test.truth, compare_equality he hv hsame, Operator.truth]
  | moreThan v =>
    refine compare_ordered he rfl ?_ (by simpa [Operator.Typed, Operator.operands] using htyped) _
    rw [not_gt]
    rfl
  | moreThanOrEqual v =>
    refine compare_ordered he rfl ?_ (by simpa [Operator.Typed, Operator.operands] using htyped) _
    rw [not_isGE]
    rfl
  | lessThan v =>
    refine compare_ordered he rfl ?_ (by simpa [Operator.Typed, Operator.operands] using htyped) _
    rw [not_lt]
    rfl
  | lessThanOrEqual v =>
    refine compare_ordered he rfl ?_ (by simpa [Operator.Typed, Operator.operands] using htyped) _
    rw [not_isLE]
    rfl
  | between low high =>
    obtain ⟨rfl, _⟩ := Document.Filter.positive_eq_ok.1 h
    exact between_eq_holds he htyped
  | oneOf vs =>
    obtain ⟨rfl, _⟩ := hmem.resolve_left id
    have htest : ofOperator c false (.oneOf vs) = .oneOf false c vs := by
      unfold Document.Filter.ofOperator at h
      split at h
      · cases h
      · rename_i hvs
        exact if_neg hvs
    rw [htest]
    exact any_compare_eq_holds he htyped
  | isNull => rfl
  | not o ih =>
    rw [Operator.truth, Truth.signed_not]
    exact ih h ho htyped (.inl (hmem.elim id And.right))
  | like p => exact ho.elim
  | arrayContains v => exact ho.elim
  | arrayContainsAny vs => exact ho.elim

end Sql

/-! ### Predicates on one table -/

section Predicates

variable {s : Shape} {t : PredicateTree} {fs : List Document.Filter} {row : Json}

/-- The leaves of a tree that a document store takes are conditions on the fields of a document. -/
theorem Document.Filter.leaves_of_ofTree (row : Json) (h : ofTree s t = .ok fs) :
    (∀ l ∈ t.leaves, l.chain = [] ∧ ∃ f, ofOperator l.field false l.operator = .ok f) ∧
      PredicateTree.truth row t =
        .all (t.leaves.map fun l => l.operator.truth (fieldOf row l.field)) := by
  induction t generalizing fs with
  | nil => exact ⟨by simp [PredicateTree.leaves, PredicateTree.leavesBelow], rfl⟩
  | cons e t ih =>
    obtain ⟨k, c⟩ := e
    rw [ofTree, List.mapM_cons] at h
    obtain ⟨f, hf, h⟩ := bind_eq_ok.1 h
    obtain ⟨fs', hfs, h⟩ := bind_eq_ok.1 h
    obtain ⟨o, hleaf, htruth, hop⟩ := ofCondition_eq_ok hf
    obtain ⟨hleaves, hall⟩ := ih hfs
    have hcons : PredicateTree.leaves ((k, c) :: t) = ⟨[], k, o⟩ :: PredicateTree.leaves t := by
      rw [PredicateTree.leaves, PredicateTree.leavesBelow, hleaf]
      rfl
    rw [hcons, List.forall_mem_cons, List.map_cons, Truth.all_cons, ← hall, ← htruth]
    exact ⟨⟨⟨rfl, f, hop⟩, hleaves⟩, rfl⟩

theorem Document.Filter.exists_ofTree {p : Predicate} {filter : Option Document.Filter}
    (h : ofPredicate s p = .ok filter) : ∀ t ∈ p.alternatives, ∃ fs, ofTree s t = .ok fs := by
  cases p with
  | all t =>
    obtain ⟨fs, hfs, _⟩ := bind_eq_ok.1 h
    simpa [Predicate.alternatives] using ⟨fs, hfs⟩
  | any ts =>
    obtain ⟨_, hfs, _⟩ := bind_eq_ok.1 h
    intro t ht
    obtain ⟨_, hf⟩ := exists_ok_of_mem_mapM hfs t ht
    obtain ⟨fs, hfs, _⟩ := bind_eq_ok.1 hf
    exact ⟨fs, hfs⟩

variable {e : Engine} (he : e.Standard)
include he

theorem Sql.all_tests_eq_holds (h : Document.Filter.ofTree s t = .ok fs)
    (ht : ∀ l ∈ t.leaves, l.operator.Elementary ∧ l.operator.Typed (fieldOf row l.field) ∧
      l.operator.PositiveMembership) :
    Truth.all ((t.leaves.map Leaf.test).map (Test.truth e (columnOf row))) = .holds ↔
      PredicateTree.truth row t = .holds := by
  obtain ⟨hleaves, hall⟩ := Document.Filter.leaves_of_ofTree row h
  rw [hall, Truth.all_eq_holds, Truth.all_eq_holds, List.map_map, List.forall_mem_map,
    List.forall_mem_map]
  refine forall₂_congr fun l hl => ?_
  obtain ⟨hchain, f, hf⟩ := hleaves l hl
  obtain ⟨hel, htyped, hmem⟩ := ht l hl
  have hcolumn : columnOf row l.column = fieldOf row l.field := by
    rw [Leaf.column, hchain]
    exact if_pos rfl
  have htruth := Test.truth_ofOperator he hf hel (hcolumn ▸ htyped) (.inr ⟨rfl, hmem⟩)
  rw [hcolumn, Truth.signed_false] at htruth
  exact htruth

/-- The condition of a statement says of a row what the predicate says of it as a document. -/
theorem Sql.truth_ofPredicate {p : Predicate} {filter : Option Document.Filter}
    (h : Document.Filter.ofPredicate s p = .ok filter)
    (hp : ∀ l ∈ p.leaves, l.operator.Elementary ∧ l.operator.Typed (fieldOf row l.field) ∧
      l.operator.PositiveMembership) :
    (Where.ofPredicate p).truth e (columnOf row) = .holds ↔ p.truth row = .holds := by
  have hall : ∀ t ∈ p.alternatives,
      (Truth.all ((t.leaves.map Leaf.test).map (Test.truth e (columnOf row))) = .holds ↔
        PredicateTree.truth row t = .holds) := by
    intro t ht
    obtain ⟨fs, hfs⟩ := Document.Filter.exists_ofTree h t ht
    exact all_tests_eq_holds he hfs fun l hl => hp l (List.mem_flatMap.2 ⟨t, ht, hl⟩)
  cases p with
  | all t => exact hall t (List.mem_singleton.2 rfl)
  | any ts =>
    rw [Where.ofPredicate, Where.truth, Predicate.truth, Truth.any_eq_holds, Truth.any_eq_holds,
      List.map_map, List.mem_map, List.mem_map]
    exact exists_congr fun t => and_congr_right fun ht => hall t ht

end Predicates

/-! ### Both stores -/

/-- A database and a document store select the same rows of one table, for every specification that
a builder leads to and both can take. The one condition is that no row is null in a field that is
looked up in a list with a null in it. -/
theorem isMet_iff_selects {σ : Schema} {b : Builder σ} {stmt : Select} {query : Document.Query}
    {e : Engine} {row : Json} (hb : b.Reachable) (hstmt : Select.ofSpec σ b.spec = .ok stmt)
    (hquery : Document.Query.ofSpec σ b.spec = .ok query) (he : e.Standard)
    (hel : ∀ l ∈ b.spec.predicate.leaves, l.operator.Elementary)
    (htyped : ∀ l ∈ b.spec.predicate.leaves, l.operator.Typed (fieldOf row l.field))
    (hlists : ∀ l ∈ b.spec.predicate.leaves, ∀ vs, l.operator = .oneOf vs →
      (fieldOf row l.field).isNull = true → ∀ v ∈ vs, v.isNull = false) :
    stmt.condition.truth e (columnOf row) = .holds ↔ query.isMet row = true := by
  obtain ⟨_, _, _, _, rfl⟩ := Select.ofSpec_eq_ok hstmt
  obtain ⟨s, hfilter⟩ := Document.Query.ofPredicate_of_ofSpec hquery
  have hselects := truth_ofPredicate he hfilter fun l hl =>
    ⟨hel l hl, htyped l hl, hb.positiveMembership l hl⟩
  have hapart : ∀ l ∈ b.spec.predicate.leaves, l.operator.NullApart (fieldOf row l.field) :=
    fun l hl => (hel l hl).nullApart (hlists l hl) (hb.positiveMembership l hl)
  rw [hselects, ← Document.Filter.holds_ofPredicate hfilter hapart]
  rfl

/-- A builder that looks a title up in a list with a null in it. Its query finds a missing title. -/
theorem exists_lookup_articles :
    ∃ (b : Builder .articles) (stmt : Select) (query : Document.Query), b.Reachable ∧
      b.spec.predicate.leaves = [⟨[], "title", .oneOf [.string "a", .null]⟩] ∧
      Select.ofSpec .articles b.spec = .ok stmt ∧
      stmt.condition = .all [.oneOf false ⟨root, "title"⟩ [.string "a", .null]] ∧
      Document.Query.ofSpec .articles b.spec = .ok query ∧ query.isMet (.mkObj []) = true := by
  have hrun : (do
      let b₀ ← Builder.new .articles "Article"
      let b ← b₀.applyAll [.oneOf "title" [.string "a", .null]]
      return (← Select.ofSpec .articles b.spec, ← Document.Query.ofSpec .articles b.spec) :
      Except QueryError (Select × Document.Query)).toOption.any
        (fun r => r.2.isMet (.mkObj [])) = true := by
    decide +kernel
  obtain ⟨r, h, hmet⟩ := exists_ok_of_any hrun
  obtain ⟨b₀, h₀, h⟩ := bind_eq_ok.1 h
  obtain ⟨b, hb, h⟩ := bind_eq_ok.1 h
  obtain ⟨stmt, hstmt, h⟩ := bind_eq_ok.1 h
  obtain ⟨query, hquery, h⟩ := bind_eq_ok.1 h
  cases h
  have hreachable : b.Reachable := (Builder.Reachable.new h₀).applyAll hb
  obtain ⟨_, _, _, rfl⟩ := Builder.new_eq_ok.1 h₀
  have hp : b.spec.predicate = .all [("title", .op (.oneOf [.string "a", .null]))] :=
    (Builder.ran_of_applyAll hb).predicate [] rfl
  refine ⟨b, stmt, query, hreachable, by rw [hp]; rfl, hstmt, ?_, hquery, hmet⟩
  obtain ⟨_, _, _, _, rfl⟩ := Select.ofSpec_eq_ok hstmt
  rw [hp]
  rfl

/-- The null in the list is no obstacle where there is a title. -/
theorem isMet_articles_iff_selects :
    ∃ (b : Builder .articles) (stmt : Select) (query : Document.Query) (row : Json),
      b.spec.predicate.leaves = [⟨[], "title", .oneOf [.string "a", .null]⟩] ∧
      row = .mkObj [("title", .str "a")] ∧ b.Reachable ∧
      Select.ofSpec .articles b.spec = .ok stmt ∧
      Document.Query.ofSpec .articles b.spec = .ok query ∧ Engine.reference.Standard ∧
      stmt.condition.truth .reference (columnOf row) = .holds ∧ query.isMet row = true := by
  obtain ⟨b, stmt, query, hb, hleaves, hstmt, hcondition, hquery, _⟩ := exists_lookup_articles
  let row : Json := .mkObj [("title", .str "a")]
  have htitle : fieldOf row "title" = .str "a" := by decide +kernel
  have hselects : stmt.condition.truth .reference (columnOf row) = .holds := by
    rw [hcondition]
    decide +kernel
  have hmet : query.isMet row = true := by
    refine (isMet_iff_selects hb hstmt hquery Engine.standard_reference ?_ ?_ ?_).1 hselects
    · simp [hleaves, Operator.Elementary, Value.Finite]
    · simp [hleaves, Operator.Typed, Operator.operands, htitle, Value.isNull, Value.toJson,
        Value.encode, SameType]
    · simp [hleaves, htitle, Json.isNull]
  exact ⟨b, stmt, query, row, hleaves, rfl, hb, hstmt, hquery, Engine.standard_reference, hselects,
    hmet⟩

/-- A missing title is found in the list by a document store, and not by a database. -/
theorem exists_isMet_not_selected :
    ∃ (b : Builder .articles) (stmt : Select) (query : Document.Query) (row : Json),
      b.spec.predicate.leaves = [⟨[], "title", .oneOf [.string "a", .null]⟩] ∧
      row = .mkObj [] ∧ b.Reachable ∧ Select.ofSpec .articles b.spec = .ok stmt ∧
      Document.Query.ofSpec .articles b.spec = .ok query ∧ Engine.reference.Standard ∧
      (∀ l ∈ b.spec.predicate.leaves, l.operator.Elementary ∧
        l.operator.Typed (fieldOf row l.field)) ∧
      query.isMet row = true ∧ stmt.condition.truth .reference (columnOf row) ≠ .holds := by
  obtain ⟨b, stmt, query, hb, hleaves, hstmt, hcondition, hquery, hmet⟩ := exists_lookup_articles
  have hnull : (fieldOf (.mkObj []) "title").isNull = true := by decide +kernel
  refine ⟨b, stmt, query, .mkObj [], hleaves, rfl, hb, hstmt, hquery, Engine.standard_reference,
    ?_, hmet, ?_⟩
  · simp [hleaves, Operator.Elementary, Value.Finite, Operator.Typed, hnull]
  · rw [hcondition]
    decide +kernel

end RowQuery
