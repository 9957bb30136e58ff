import RowQuery.Config
import RowQuery.Document.Filter
import RowQuery.Path

/-!
# Specifications as document queries

A document store looks at one collection and at whole values, so relations, most patterns and most
negations are refused and never approximated. A search for a prefix is a range of strings.
-/

namespace RowQuery.Document

/-- A character after those that texts are written with; it ends the range of a prefix. -/
def prefixEnd : Char := '\uf8ff'

namespace Filter

def nullTest (field : String) (negated : Bool) : Filter :=
  .field field (if negated then .isNotNull else .isNull) .null

def list (vs : List Value) : Json := .arr (vs.map Value.toJson)

/-- A filter that the store cannot negate. -/
def positive (negated : Bool) (o : Operator) (f : Filter) : Except QueryError Filter :=
  if negated then .error (.unsupported (.negation o.kind)) else .ok f

/-- The filter that an operator, or its negation, makes of a field. -/
def ofOperator (field : String) (negated : Bool) (o : Operator) : Except QueryError Filter :=
  match o with
  | .equal v =>
    if v.isNull then .ok (nullTest field negated)
    else .ok (.field field (if negated then .notEqual else .equal) v.toJson)
  | .moreThan v => .ok (.field field (if negated then .lessThanOrEqual else .greaterThan) v.toJson)
  | .moreThanOrEqual v =>
    .ok (.field field (if negated then .lessThan else .greaterThanOrEqual) v.toJson)
  | .lessThan v => .ok (.field field (if negated then .greaterThanOrEqual else .lessThan) v.toJson)
  | .lessThanOrEqual v =>
    .ok (.field field (if negated then .greaterThan else .lessThanOrEqual) v.toJson)
  | .between low high => positive negated o <|
    .and [.field field .greaterThanOrEqual low.toJson, .field field .lessThanOrEqual high.toJson]
  | .like p => do
    let range := Filter.and [.field field .greaterThanOrEqual (.str p.text),
      .field field .lessThan (.str (p.text.push prefixEnd))]
    let f ← positive negated o range
    refuseIf (p.kind ≠ .startsWith ∨ p.ignoreCase) (.unsupported (.pattern o.kind))
    return f
  | .oneOf vs =>
    if vs.isEmpty then
      .error (.unsupported (if negated then .negation o.kind else .emptyList o.kind))
    else .ok (.field field (if negated then .notOneOf else .oneOf) (list vs))
  | .isNull => .ok (nullTest field negated)
  | .arrayContains v => positive negated o (.field field .arrayContains v.toJson)
  | .arrayContainsAny vs => do
    let f ← positive negated o (.field field .arrayContainsAny (list vs))
    refuseIf (vs.isEmpty = true) (.unsupported (.emptyList o.kind))
    return f
  | .not o => ofOperator field (!negated) o

/-- The filter of a condition on a field of `s`. -/
def ofCondition (s : Shape) (key : String) (c : Condition) : Except QueryError Filter := do
  let field ← s.requireField key
  match c with
  | .value v => ofOperator key false (.equal v)
  | .op o => ofOperator key false o
  | .nested _ =>
    throw (.unsupported (if field.isRelation then .throughRelation key else .nestedUnder key))

/-- The filters of a tree of conditions, in the order of their fields. -/
def ofTree (s : Shape) (t : PredicateTree) : Except QueryError (List Filter) :=
  t.mapM fun e => ofCondition s e.1 e.2

def ofPredicate (s : Shape) : Predicate → Except QueryError (Option Filter)
  | .all t => do
    let filters ← ofTree s t
    return if filters.isEmpty then none else some (.all filters)
  | .any branches => do
    return some (.or (← branches.mapM fun t => do return .all (← ofTree s t)))

end Filter

/-- The document query for a specification. -/
def Query.ofSpec (σ : Schema) (q : QuerySpec) : Except QueryError Query := do
  let s ← σ.shape q.entity
  let filter ← Filter.ofPredicate s q.predicate
  refuseIf (q.relations.isEmpty = false) (.unsupported .relationLoading)
  refuseIf (q.loadRelationIds = true) (.unsupported .relationIds)
  s.requireFields (q.order.map OrderBy.field)
  s.requireFields q.selection
  return {
    collection := s.table
    filter := filter
    order := q.order
    select := q.selection
    offset := q.pagination.offset?.filter (0 < ·)
    limit := q.pagination.pageSize?
    cache := q.cache.resolve standardCacheTime }

/-- A specification is put into a document query exactly where nothing in it is refused. -/
theorem Query.ofSpec_eq_ok {σ : Schema} {q : QuerySpec} {query : Query} :
    ofSpec σ q = .ok query ↔
      ∃ s filter, σ.shape q.entity = .ok s ∧ Filter.ofPredicate s q.predicate = .ok filter ∧
        q.relations.isEmpty = true ∧ q.loadRelationIds = false ∧
        s.requireFields (q.order.map OrderBy.field) = .ok () ∧
        s.requireFields q.selection = .ok () ∧
        query = {
          collection := s.table
          filter := filter
          order := q.order
          select := q.selection
          offset := q.pagination.offset?.filter (0 < ·)
          limit := q.pagination.pageSize?
          cache := q.cache.resolve standardCacheTime } := by
  simp only [ofSpec, bind_eq_ok, refuseIf_eq_ok, Bool.not_eq_false, Bool.not_eq_true]
  constructor
  · rintro ⟨s, hs, filter, hfilter, _, hrelations, _, hids, _, horder, _, hselection, h⟩
    cases h
    exact ⟨s, filter, hs, hfilter, hrelations, hids, horder, hselection, rfl⟩
  · rintro ⟨s, filter, hs, hfilter, hrelations, hids, horder, hselection, rfl⟩
    exact ⟨s, hs, filter, hfilter, (), hrelations, (), hids, (), horder, (), hselection, rfl⟩

end RowQuery.Document
