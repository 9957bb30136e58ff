import RowQuery.Document.Spec
import RowQuery.Document.Store
import RowQuery.Proofs.Tree.Traversal
import RowQuery.Proofs.Truth

/-!
# What a predicate says of a document

A predicate has a truth value for every document, which is put together from its operators without
regard to any filter: a comparison that cannot be made is unknown, and so is a test for equality or
membership of a field that is null or missing. The filter that a store evaluates knows two values
only. It passes exactly the documents for which the predicate holds (`isMet_iff_truth`).
-/

namespace RowQuery

open Document

/-! ### Values -/

mutual

/-- Every float in the value is finite. -/
def Value.Finite : Value → Prop
  | .float x => x.isFinite = true
  | .list items => Value.AllFinite items
  | _ => True

def Value.AllFinite : List Value → Prop
  | [] => True
  | v :: vs => v.Finite ∧ Value.AllFinite vs

end

theorem Value.toJson_of_isNull {v : Value} (h : v.isNull = true) : v.toJson = .null := by
  cases v with
  | null => rfl
  | _ => cases h

/-- Only a float that is not finite is written as null without being null. -/
theorem Value.isNull_toJson {v : Value} (hv : v.isNull = false) (hfin : v.Finite) :
    v.toJson.isNull = false := by
  cases v with
  | null => cases hv
  | float x =>
    have hx : x.isFinite = true := hfin
    have hjson : (Value.float x).toJson = .num (.float x hx) := dif_pos hx
    rw [hjson]
    rfl
  | _ => rfl

/-! ### Truth of operators -/

/-- The truth of a comparison, which is unknown where there is no order. -/
def Json.ordered (x y : Json) (p : Ordering → Bool) : Truth :=
  match compareWithin? x y with
  | some o => .ofBool (p o)
  | none => .unknown

namespace Operator

/-- Equality with null is the null test; with anything else it is unknown for null. -/
def equality (x : Json) (v : Value) : Truth :=
  if v.isNull then .ofBool x.isNull
  else if x.isNull then .unknown
  else .ofBool (equalValues x v.toJson)

def membership (x : Json) (vs : List Value) : Truth :=
  if x.isNull then .unknown else .ofBool (vs.any fun v => equalValues x v.toJson)

def hasElement (x : Json) (vs : List Value) : Bool :=
  (x.items?.getD []).any fun item => vs.any fun v => equalValues item v.toJson

/-- What an operator says of the value of a field. It has nothing to say about patterns. -/
def truth (x : Json) : Operator → Truth
  | equal v => equality x v
  | moreThan v => x.ordered v.toJson (· == .gt)
  | moreThanOrEqual v => x.ordered v.toJson Ordering.isGE
  | lessThan v => x.ordered v.toJson (· == .lt)
  | lessThanOrEqual v => x.ordered v.toJson Ordering.isLE
  | between low high =>
    (x.ordered low.toJson Ordering.isGE).and (x.ordered high.toJson Ordering.isLE)
  | like _ => .unknown
  | oneOf vs => membership x vs
  | isNull => .ofBool x.isNull
  | arrayContains v => .ofBool (hasElement x [v])
  | arrayContainsAny vs => .ofBool (hasElement x vs)
  | not o => (o.truth x).not

/-- The operator is no search for a pattern, its floats are finite, and its lists hold no null. -/
def Plain : Operator → Prop
  | equal v | moreThan v | moreThanOrEqual v | lessThan v | lessThanOrEqual v | arrayContains v =>
    v.Finite
  | between low high => low.Finite ∧ high.Finite
  | like _ => False
  | oneOf vs | arrayContainsAny vs => ∀ v ∈ vs, v.isNull = false ∧ v.Finite
  | isNull => True
  | not o => o.Plain

end Operator

/-! ### Truth of predicates -/

mutual

/-- What a condition says of the value of its field. -/
def Condition.truth (x : Json) : Condition → Truth
  | .value v => (Operator.equal v).truth x
  | .op o => o.truth x
  | .nested t => PredicateTree.truth x t

/-- The conjunction of the conditions, each on the field under its key. -/
def PredicateTree.truth (doc : Json) : List (String × Condition) → Truth
  | [] => .holds
  | (k, c) :: t => (c.truth (fieldOf doc k)).and (PredicateTree.truth doc t)

end

/-- The disjunction of the alternatives. -/
def Predicate.truth (doc : Json) : Predicate → Truth
  | .all t => PredicateTree.truth doc t
  | .any ts => .any (ts.map (PredicateTree.truth doc))

/-! ### Tests of one value -/

section Tests

variable (x y : Json)

theorem Json.eq_null_of_isNull {x : Json} (h : x.isNull = true) : x = .null := by
  cases x with
  | null => rfl
  | _ => cases h

/-- Nothing but null has the value null. -/
theorem equalValues_null : equalValues .null y = y.isNull := by
  cases y <;> rfl

theorem Json.ordered_eq_holds (p : Ordering → Bool) :
    x.ordered y p = .holds ↔ (compareWithin? x y).any p = true := by
  unfold Json.ordered
  cases compareWithin? x y <;> simp

/-- A comparison fails where the values are in another order, and not where they have none. -/
theorem Json.ordered_eq_fails (p : Ordering → Bool) :
    x.ordered y p = .fails ↔ (compareWithin? x y).any (fun o => !p o) = true := by
  unfold Json.ordered
  cases compareWithin? x y <;> simp

section Orderings

theorem not_lt : (fun o : Ordering => !(o == .lt)) = Ordering.isGE := by
  funext o; cases o <;> rfl

theorem not_gt : (fun o : Ordering => !(o == .gt)) = Ordering.isLE := by
  funext o; cases o <;> rfl

theorem not_isLE : (fun o : Ordering => !o.isLE) = (· == .gt) := by
  funext o; cases o <;> rfl

theorem not_isGE : (fun o : Ordering => !o.isGE) = (· == .lt) := by
  funext o; cases o <;> rfl

end Orderings

namespace Document.FieldOp

/-! A test of the order, and the test that its negation becomes, look at the same comparison. -/

theorem holds_lessThan : lessThan.holds x y = (compareWithin? x y).any (· == .lt) := by
  simp only [holds]
  cases compareWithin? x y <;> rfl

theorem holds_greaterThan : greaterThan.holds x y = (compareWithin? x y).any (· == .gt) := by
  simp only [holds]
  cases compareWithin? x y <;> rfl

theorem holds_lessThanOrEqual :
    lessThanOrEqual.holds x y = (compareWithin? x y).any Ordering.isLE := rfl

theorem holds_greaterThanOrEqual :
    greaterThanOrEqual.holds x y = (compareWithin? x y).any Ordering.isGE := rfl

theorem holds_ordered {op opposite : FieldOp} {p : Ordering → Bool}
    (hop : op.holds x y = (compareWithin? x y).any p)
    (hopposite : opposite.holds x y = (compareWithin? x y).any fun o => !p o) (negated : Bool) :
    (if negated then opposite else op).holds x y = true ↔
      (x.ordered y p).signed negated = .holds := by
  cases negated with
  | false => rw [Truth.signed_false, Json.ordered_eq_holds, ← hop]; rfl
  | true => rw [Truth.signed_true, Truth.not_eq_holds, Json.ordered_eq_fails, ← hopposite]; rfl

variable {x}

theorem holds_equality {v : Value} (hv : v.isNull = false)
    (hx : x.isNull = true → v.toJson.isNull = false) (negated : Bool) :
    (if negated then notEqual else equal).holds x v.toJson = true ↔
      (Operator.equality x v).signed negated = .holds := by
  by_cases hnull : x.isNull = true
  · have hunknown : Operator.equality x v = .unknown := by simp [Operator.equality, hv, hnull]
    have hsame : equalValues x v.toJson = false := by
      rw [Json.eq_null_of_isNull hnull, equalValues_null, hx hnull]
    cases negated <;> simp [hunknown, holds, hsame, hnull, Truth.not]
  · have hdecided : Operator.equality x v = .ofBool (equalValues x v.toJson) := by
      simp [Operator.equality, hv, hnull]
    cases negated <;> simp [hdecided, holds, hnull]

theorem holds_membership {vs : List Value}
    (hx : x.isNull = true → ∀ v ∈ vs, v.toJson.isNull = false) (negated : Bool) :
    (if negated then notOneOf else oneOf).holds x (Filter.list vs) = true ↔
      (Operator.membership x vs).signed negated = .holds := by
  have hcandidates : ((Filter.list vs).items?.getD []).any (equalValues x) =
      vs.any fun v => equalValues x v.toJson := by
    simp [Filter.list, Json.items?, Function.comp_def]
  by_cases hnull : x.isNull = true
  · have hunknown : Operator.membership x vs = .unknown := by simp [Operator.membership, hnull]
    have hnone : (vs.any fun v => equalValues x v.toJson) = false := by
      rw [List.any_eq_false]
      intro v hv
      rw [Json.eq_null_of_isNull hnull, equalValues_null, hx hnull v hv]
      simp
    cases negated <;> simp [hunknown, holds, hcandidates, hnone, hnull, Truth.not]
  · have hdecided : Operator.membership x vs =
        .ofBool (vs.any fun v => equalValues x v.toJson) := by
      simp [Operator.membership, hnull]
    cases negated <;> simp [hdecided, holds, hcandidates, hnull]

theorem holds_arrayContains (v : Value) :
    arrayContains.holds x v.toJson = Operator.hasElement x [v] := by
  simp [holds, Operator.hasElement]

/-- It makes no difference whether elements or operands are looked through first. -/
theorem holds_arrayContainsAny (vs : List Value) :
    arrayContainsAny.holds x (Filter.list vs) = Operator.hasElement x vs := by
  rw [Bool.eq_iff_iff]
  simp only [holds, Operator.hasElement, Filter.list, Json.items?, Option.getD_some, List.any_map,
    List.any_eq_true, Function.comp_apply]
  constructor
  · rintro ⟨v, hv, item, hitem, hsame⟩
    exact ⟨item, hitem, v, hv, hsame⟩
  · rintro ⟨item, hitem, v, hv, hsame⟩
    exact ⟨v, hv, item, hitem, hsame⟩

theorem holds_nullTest (doc : Json) (field : String) (negated : Bool) :
    (Filter.nullTest field negated).holds doc = true ↔
      (Truth.ofBool (fieldOf doc field).isNull).signed negated = .holds := by
  cases negated <;> simp [Filter.nullTest, Filter.holds, holds]

end Document.FieldOp

end Tests

/-! ### Filters of operators -/

/-- A field that is null is not among the operands that it is tested for equality with. -/
def Operator.NullApart (x : Json) : Operator → Prop
  | equal v => v.isNull = false → x.isNull = true → v.toJson.isNull = false
  | oneOf vs => x.isNull = true → ∀ v ∈ vs, v.toJson.isNull = false
  | like _ => False
  | not o => o.NullApart x
  | _ => True

theorem Operator.Plain.nullApart {o : Operator} (ho : o.Plain) (x : Json) : o.NullApart x := by
  induction o with
  | equal v => exact fun hv _ => Value.isNull_toJson hv ho
  | oneOf vs => exact fun _ v hv => Value.isNull_toJson (ho v hv).1 (ho v hv).2
  | like p => exact ho
  | not o ih => exact ih ho
  | _ => trivial

namespace Document.Filter

variable {field : String} {negated : Bool} {f : Filter} {o : Operator}

theorem holds_field (doc : Json) (op : FieldOp) (operand : Json) :
    (Filter.field field op operand).holds doc = op.holds (fieldOf doc field) operand := rfl

theorem positive_eq_ok {g : Filter} :
    positive negated o g = .ok f ↔ negated = false ∧ f = g := by
  cases negated <;> simp [positive, eq_comm]

/-- The filter of an operator passes the documents for whose field the operator holds. -/
theorem holds_ofOperator (h : ofOperator field negated o = .ok f) (doc : Json)
    (ho : o.NullApart (fieldOf doc field)) :
    f.holds doc = true ↔ (o.truth (fieldOf doc field)).signed negated = .holds := by
  induction o generalizing negated f with
  | equal v =>
    unfold ofOperator at h
    split at h
    · rename_i hv
      cases h
      rw [FieldOp.holds_nullTest, Operator.truth, Operator.equality, if_pos hv]
    · rename_i hv
      cases h
      have hv : v.isNull = false := by simpa using hv
      exact FieldOp.holds_equality hv (ho hv) negated
  | moreThan v =>
    cases h
    refine FieldOp.holds_ordered _ _ (FieldOp.holds_greaterThan _ _) ?_ negated
    rw [FieldOp.holds_lessThanOrEqual, not_gt]
  | moreThanOrEqual v =>
    cases h
    refine FieldOp.holds_ordered _ _ (FieldOp.holds_greaterThanOrEqual _ _) ?_ negated
    rw [FieldOp.holds_lessThan, not_isGE]
  | lessThan v =>
    cases h
    refine FieldOp.holds_ordered _ _ (FieldOp.holds_lessThan _ _) ?_ negated
    rw [FieldOp.holds_greaterThanOrEqual, not_lt]
  | lessThanOrEqual v =>
    cases h
    refine FieldOp.holds_ordered _ _ (FieldOp.holds_lessThanOrEqual _ _) ?_ negated
    rw [FieldOp.holds_greaterThan, not_isLE]
  | between low high =>
    obtain ⟨rfl, rfl⟩ := positive_eq_ok.1 h
    rw [holds_and, List.all_cons, List.all_cons, List.all_nil, Bool.and_true, Bool.and_eq_true,
      holds_field, holds_field, FieldOp.holds_greaterThanOrEqual, FieldOp.holds_lessThanOrEqual,
      Truth.signed_false, Operator.truth, Truth.and_eq_holds, Json.ordered_eq_holds,
      Json.ordered_eq_holds]
  | like p => exact ho.elim
  | oneOf vs =>
    unfold ofOperator at h
    split at h
    · cases h
    · cases h
      exact FieldOp.holds_membership ho negated
  | isNull =>
    cases h
    exact FieldOp.holds_nullTest doc field negated
  | arrayContains v =>
    obtain ⟨rfl, rfl⟩ := positive_eq_ok.1 h
    rw [holds_field, Truth.signed_false, Operator.truth, Truth.ofBool_eq_holds,
      FieldOp.holds_arrayContains]
  | arrayContainsAny vs =>
    unfold ofOperator at h
    obtain ⟨g, hg, h⟩ := bind_eq_ok.1 h
    obtain ⟨_, _, h⟩ := bind_eq_ok.1 h
    cases h
    obtain ⟨rfl, rfl⟩ := positive_eq_ok.1 hg
    rw [holds_field, Truth.signed_false, Operator.truth, Truth.ofBool_eq_holds,
      FieldOp.holds_arrayContainsAny]
  | not o ih =>
    rw [Operator.truth, Truth.signed_not]
    exact ih h ho

/-! ### Filters of trees -/

variable {s : Shape} {doc : Json}

/-- Only a condition that is a leaf has a filter, that of its operator. -/
theorem ofCondition_eq_ok {key : String} {c : Condition} (h : ofCondition s key c = .ok f) :
    ∃ o, c.leaves [] key = [⟨[], key, o⟩] ∧ (∀ x, c.truth x = o.truth x) ∧
      ofOperator key false o = .ok f := by
  obtain ⟨r, _, h⟩ := bind_eq_ok.1 h
  cases c with
  | value v => exact ⟨.equal v, rfl, fun _ => rfl, h⟩
  | op o => exact ⟨o, rfl, fun _ => rfl, h⟩
  | nested t => cases h

theorem holds_ofTree {t : PredicateTree} {fs : List Filter} (h : ofTree s t = .ok fs)
    (ht : ∀ l ∈ t.leaves, l.operator.NullApart (fieldOf doc l.field)) :
    fs.all (Filter.holds doc) = true ↔ PredicateTree.truth doc t = .holds := by
  induction t generalizing fs with
  | nil =>
    cases h
    simp [PredicateTree.truth]
  | cons e t ih =>
    obtain ⟨k, c⟩ := e
    rw [ofTree, List.mapM_cons] at h
    obtain ⟨f, hf, h⟩ := bind_eq_ok.1 h
    obtain ⟨fs', hfs, h⟩ := bind_eq_ok.1 h
    cases h
    obtain ⟨o, hleaf, htruth, hop⟩ := ofCondition_eq_ok hf
    have hleaves : PredicateTree.leaves ((k, c) :: t) = ⟨[], k, o⟩ ::
        PredicateTree.leaves t := by
      rw [PredicateTree.leaves, PredicateTree.leavesBelow, hleaf]
      rfl
    rw [hleaves, List.forall_mem_cons] at ht
    rw [List.all_cons, Bool.and_eq_true, PredicateTree.truth, Truth.and_eq_holds, htruth,
      ih hfs ht.2, holds_ofOperator hop doc ht.1, Truth.signed_false]

theorem someHolds_ofTrees {ts : List PredicateTree} {fs : List Filter}
    (h : (ts.mapM fun t => do return Filter.all (← ofTree s t)) = .ok fs)
    (hts : ∀ t ∈ ts, ∀ l ∈ t.leaves, l.operator.NullApart (fieldOf doc l.field)) :
    fs.any (Filter.holds doc) = true ↔
      Truth.any (ts.map (PredicateTree.truth doc)) = .holds := by
  induction ts generalizing fs with
  | nil =>
    cases h
    simp
  | cons t ts ih =>
    rw [List.mapM_cons] at h
    obtain ⟨f, hf, h⟩ := bind_eq_ok.1 h
    obtain ⟨fs', hfs, h⟩ := bind_eq_ok.1 h
    cases h
    obtain ⟨gs, hgs, hf⟩ := bind_eq_ok.1 hf
    cases hf
    obtain ⟨ht, hts⟩ := List.forall_mem_cons.1 hts
    rw [List.any_cons, Bool.or_eq_true, holds_all, List.map_cons, Truth.any_cons,
      Truth.or_eq_holds, holds_ofTree hgs ht, ih hfs hts]

/-- The filter of a predicate, or no filter, passes the documents for which it holds. -/
theorem holds_ofPredicate {p : Predicate} {filter : Option Filter}
    (h : ofPredicate s p = .ok filter)
    (hp : ∀ l ∈ p.leaves, l.operator.NullApart (fieldOf doc l.field)) :
    filter.all (Filter.holds doc) = true ↔ p.truth doc = .holds := by
  cases p with
  | all t =>
    obtain ⟨fs, hfs, h⟩ := bind_eq_ok.1 h
    cases h
    have ht : ∀ l ∈ t.leaves, l.operator.NullApart (fieldOf doc l.field) := by
      simpa [Predicate.leaves, Predicate.alternatives] using hp
    rw [Predicate.truth, ← holds_ofTree hfs ht]
    cases fs with
    | nil => rfl
    | cons f fs => exact Bool.eq_iff_iff.1 (holds_all doc (f :: fs))
  | any ts =>
    obtain ⟨fs, hfs, h⟩ := bind_eq_ok.1 h
    cases h
    have hts : ∀ t ∈ ts, ∀ l ∈ t.leaves, l.operator.NullApart (fieldOf doc l.field) :=
      fun t ht l hl => hp l (List.mem_flatMap.2 ⟨t, ht, hl⟩)
    rw [Predicate.truth, ← someHolds_ofTrees hfs hts, Option.all_some, holds_or]

end Document.Filter

namespace Document.Query

variable {σ : Schema} {q : QuerySpec} {query : Query}

theorem ofPredicate_of_ofSpec (h : ofSpec σ q = .ok query) :
    ∃ s, Filter.ofPredicate s q.predicate = .ok query.filter := by
  obtain ⟨s, filter, _, hfilter, _, _, _, _, rfl⟩ := ofSpec_eq_ok.1 h
  exact ⟨s, hfilter⟩

/-- A document passes the filter that a specification is translated to if, and only if, the
predicate of the specification holds for it. -/
theorem isMet_iff_truth (h : ofSpec σ q = .ok query)
    (hplain : ∀ l ∈ q.predicate.leaves, l.operator.Plain) (doc : Json) :
    query.isMet doc = true ↔ q.predicate.truth doc = .holds := by
  obtain ⟨s, hfilter⟩ := ofPredicate_of_ofSpec h
  exact Filter.holds_ofPredicate hfilter fun l hl => (hplain l hl).nullApart _

/-- A text has no place in the order of numbers, so a comparison with one is not made true by any
negations; the title is selected because it is not in the list. -/
theorem isMet_articles_iff_truth :
    ∃ (q : QuerySpec) (query : Query) (doc : Json),
      q.predicate = .any
        [[("title", .op (.not (.not (.not (.lessThan (.int 5))))))],
          [("title", .op (.not (.oneOf [.string "a", .float .zero])))]] ∧
      doc = .mkObj [("title", .str "b")] ∧
      ofSpec .articles q = .ok query ∧ (∀ l ∈ q.predicate.leaves, l.operator.Plain) ∧
      query.isMet doc = true ∧ q.predicate.truth doc = .holds := by
  let p : Predicate := .any
    [[("title", .op (.not (.not (.not (.lessThan (.int 5))))))],
      [("title", .op (.not (.oneOf [.string "a", .float .zero])))]]
  obtain ⟨query, hquery⟩ :
      ∃ query, ofSpec .articles { QuerySpec.all "Article" with predicate := p } = .ok query :=
    exists_ok_of_isSome (by decide +kernel)
  have hplain : ∀ l ∈ p.leaves, l.operator.Plain := by
    simp [p, Predicate.leaves, Predicate.alternatives, PredicateTree.leaves,
      PredicateTree.leavesBelow, Condition.leaves, Operator.Plain, Value.isNull, Value.Finite,
      show Double.zero.isFinite = true from by decide]
  have htruth : p.truth (.mkObj [("title", .str "b")]) = .holds := by decide +kernel
  exact ⟨_, query, _, rfl, rfl, hquery, hplain,
    (isMet_iff_truth hquery hplain _).2 htruth, htruth⟩

end Document.Query

end RowQuery
