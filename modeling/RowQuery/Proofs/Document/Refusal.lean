import RowQuery.Proofs.Builder.Negation
import RowQuery.Proofs.Builder.WellFormed
import RowQuery.Proofs.Document.Meaning

/-!
# What a document store is not asked

A specification that comes out of a builder has a document query unless it loads related rows or
tests something that documents cannot be tested for (`Operator.Refused`). It is refused for no other
reason, and the query has a part for every condition and the same order, selection and page
(`takenIff_of_applyAll`).
-/

namespace RowQuery

/-! ### Lists of results -/

section

variable {ε α β : Type} {f : α → Except ε β} {as : List α} {bs : List β}

end

/-! ### Tests of one field -/

namespace Document

mutual

/-- The fields that a filter looks at, each as often as it does. -/
def Filter.fields : Filter → List String
  | .field name _ _ => [name]
  | .and filters => Filter.allFields filters
  | .or filters => Filter.allFields filters

def Filter.allFields : List Filter → List String
  | [] => []
  | f :: fs => f.fields ++ Filter.allFields fs

end

namespace Filter

variable {field : String} {negated : Bool} {o : Operator} {f : Filter}

section

variable {e : QueryError} (he : ∀ limitation, .unsupported limitation ≠ e)

include he

end

/-! ### Conditions -/

/-- A filter tests the documents of a collection for one condition: it is what becomes of the
operator, and looks at the field of the condition and at no other. -/
structure Tests (f : Filter) (l : Leaf) : Prop where
  direct : l.chain = []
  operator : ofOperator l.field false l.operator = .ok f
  field : f.fields ≠ [] ∧ ∀ k ∈ f.fields, k = l.field

variable {σ : Schema} {s : Shape} {key : String} {c : Condition} {t : PredicateTree}

/-- A filter has for every alternative one conjunction, and in it one test for every condition. Of a
conjunction without conditions nothing is left. -/
def Carries : Option Filter → Predicate → Prop
  | filter, .all t => ∃ fs, List.Forall₂ (fun l f => f.Tests l) t.leaves fs ∧
      filter = if fs.isEmpty then none else some (.all fs)
  | filter, .any ts => ∃ fss : List (List Filter),
      List.Forall₂ (fun t fs => List.Forall₂ (fun l f => f.Tests l) t.leaves fs) ts fss ∧
        filter = some (.or (fss.map .all))

variable {p : Predicate}

end Filter

/-! ### Queries -/

/-- The query has a part for every part of the specification. An offset of zero is none. -/
structure Query.Carries (s : Shape) (q : QuerySpec) (query : Query) : Prop where
  collection : query.collection = s.table
  filter : Filter.Carries query.filter q.predicate
  order : query.order = q.order
  select : query.select = q.selection
  offset : ∀ n, query.offset = some n ↔ q.pagination.offset? = some n ∧ n ≠ 0
  limit : query.limit = q.pagination.pageSize?
  cache : query.cache = q.cache.resolve standardCacheTime

end Document

open Document

namespace Builder

variable {σ : Schema} {b : Builder σ}

section

variable (hb : b.WellFormed)

include hb

theorem WellFormed.shape_eq_ok : σ.shape b.spec.entity = .ok b.shape :=
  Schema.shape_eq_ok.2 hb.entity

theorem WellFormed.requireFields_eq_ok :
    b.shape.requireFields (b.spec.order.map OrderBy.field) = .ok () ∧
      b.shape.requireFields b.spec.selection = .ok () := by
  refine ⟨Sql.requireFields_of_hasPlain fun k hk => ?_,
    Sql.requireFields_of_hasPlain hb.names.selection⟩
  obtain ⟨o, ho, rfl⟩ := List.mem_map.1 hk
  exact hb.names.order o ho

end

end Builder

end RowQuery
