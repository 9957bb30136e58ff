import RowQuery.Builder.Stage

/-!
# Chains of calls

Builders told apart by their stage, so that a chain that would add a condition too late does not
type-check. A `Query` takes every call; membership and alternatives turn it into a `TerminalQuery`,
which takes shaping calls only. Sub-queries are functions from the query they are handed.
-/

namespace RowQuery

variable {σ : Schema}

/-- A builder that still takes conditions. -/
structure Query (σ : Schema) where
  builder : Builder σ
  accepting : builder.stage = .accepting

/-- A builder that takes none. -/
structure TerminalQuery (σ : Schema) where
  builder : Builder σ
  closed : builder.stage ≠ .accepting

/-- What a sub-query may end as. -/
inductive SubQuery (σ : Schema) where
  | query (q : Query σ)
  | terminal (q : TerminalQuery σ)

def SubQuery.builder : SubQuery σ → Builder σ
  | query q => q.builder
  | terminal q => q.builder

instance : Coe (Query σ) (SubQuery σ) := ⟨.query⟩
instance : Coe (TerminalQuery σ) (SubQuery σ) := ⟨.terminal⟩

namespace Query

def new (σ : Schema) (entity : String) : Except QueryError (Query σ) :=
  match h : Builder.new σ entity with
  | .ok b => .ok ⟨b, Builder.stage_of_new h⟩
  | .error e => .error e

variable (q : Query σ)

/-! ### Conditions -/

def filter (path : String) (f : Filter) : Except QueryError (Query σ) :=
  match h : q.builder.filter path f with
  | .ok b => .ok ⟨b, (Builder.stage_of_filter h).trans q.accepting⟩
  | .error e => .error e

section

variable {α β : Type} [ToValue α] [ToValue β] (path : String) (a : α) (b : β)

/-- An absent value asks for null. -/
def whereEq := q.filter path (.eq (toValue a))
/-- An absent value asks for anything but null. -/
def whereNe := q.filter path (.ne (toValue a))
def whereGt := q.filter path (.compare .gt (toValue a))
def whereGte := q.filter path (.compare .gte (toValue a))
def whereLt := q.filter path (.compare .lt (toValue a))
def whereLte := q.filter path (.compare .lte (toValue a))
def whereNotGt := q.filter path (.compare .notGt (toValue a))
def whereNotGte := q.filter path (.compare .notGte (toValue a))
def whereNotLt := q.filter path (.compare .notLt (toValue a))
def whereNotLte := q.filter path (.compare .notLte (toValue a))
/-- An absent end leaves its side of the range open. -/
def whereBetween := q.filter path (.between (toValue a) (toValue b))
def whereStartsWith := q.filter path (.pattern .startsWith false (toValue a))
def whereEndsWith := q.filter path (.pattern .endsWith false (toValue a))
def whereContains := q.filter path (.pattern .contains false (toValue a))
def whereIStartsWith := q.filter path (.pattern .startsWith true (toValue a))
def whereIEndsWith := q.filter path (.pattern .endsWith true (toValue a))
def whereIContains := q.filter path (.pattern .contains true (toValue a))
def whereNull := q.filter path .null
def whereNotNull := q.filter path .notNull
def whereArrayContains := q.filter path (.arrayContains (toValue a))
def whereArrayContainsAny (as : List α) := q.filter path (.arrayContainsAny (as.map toValue))

/-- Closes the chain with a membership test. -/
def whereIn (as : List α) : Except QueryError (TerminalQuery σ) :=
  match h : q.builder.oneOf path (as.map toValue) with
  | .ok b => .ok ⟨b, by rw [Builder.stage_of_oneOf h]; nofun⟩
  | .error e => .error e

end

/-! ### Composition -/

/-- Conditions on a related entity, chained by `build` onto the query it is handed. -/
def whereJoin (relation : String) (build : Query σ → Except QueryError (SubQuery σ)) :
    Except QueryError (Query σ) :=
  match h : q.builder.joinScope relation with
  | .error e => .error e
  | .ok (path, sub) =>
    match build ⟨sub, Builder.stage_of_joinScope h⟩ with
    | .error e => .error e
    | .ok sub =>
      match h : q.builder.join path sub.builder with
      | .ok b => .ok ⟨b, (Builder.stage_of_join h).trans q.accepting⟩
      | .error e => .error e

end Query

/-- The branches of alternatives so far, and the query that every branch starts from. -/
structure Alternatives (σ : Schema) where
  seed : Query σ
  branches : List (SubQuery σ)

namespace Alternatives

/-- One more branch, chained by `build` onto the query it is handed. -/
def branch (a : Alternatives σ) (build : Query σ → Except QueryError (SubQuery σ)) :
    Except QueryError (Alternatives σ) := do
  return { a with branches := a.branches ++ [← build a.seed] }

end Alternatives

namespace Query

/-- Closes the chain with alternatives. Each goes on from the conditions so far. -/
def whereOr (q : Query σ) (build : Alternatives σ → Except QueryError (Alternatives σ)) :
    Except QueryError (TerminalQuery σ) :=
  match h : q.builder.branchScope with
  | .error e => .error e
  | .ok seed =>
    match build ⟨⟨seed, Builder.stage_of_branchScope h⟩, []⟩ with
    | .error e => .error e
    | .ok alternatives =>
      match h : q.builder.or (alternatives.branches.map SubQuery.builder) with
      | .ok b => .ok ⟨b, by rw [Builder.stage_of_or h]; nofun⟩
      | .error e => .error e

/-! ### Shaping -/

def shaped (q : Query σ) (s : Shaping) : Except QueryError (Query σ) :=
  match h : q.builder.shaped s with
  | .ok b => .ok ⟨b, (Builder.stage_of_shaped h).trans q.accepting⟩
  | .error e => .error e

def page (q : Query σ) (r : PageRequest) : Except QueryError (Query σ) :=
  match h : q.builder.page r with
  | .ok b => .ok ⟨b, (Builder.stage_of_page h).trans q.accepting⟩
  | .error e => .error e

end Query

namespace TerminalQuery

def shaped (q : TerminalQuery σ) (s : Shaping) : Except QueryError (TerminalQuery σ) :=
  match h : q.builder.shaped s with
  | .ok b => .ok ⟨b, by rw [Builder.stage_of_shaped h]; exact q.closed⟩
  | .error e => .error e

def page (q : TerminalQuery σ) (r : PageRequest) : Except QueryError (TerminalQuery σ) :=
  match h : q.builder.page r with
  | .ok b => .ok ⟨b, by rw [Builder.stage_of_page h]; exact q.closed⟩
  | .error e => .error e

end TerminalQuery

end RowQuery
