import RowQuery.Value.Text

/-!
# Errors

An error is its cause; `QueryError.message` is the one place that puts causes into words.
-/

namespace RowQuery

/-- The builder calls that a message can name. -/
inductive Call where
  | whereEq | whereNe
  | whereGt | whereGte | whereLt | whereLte
  | whereNotGt | whereNotGte | whereNotLt | whereNotLte
  | whereBetween
  | whereStartsWith | whereEndsWith | whereContains
  | whereIStartsWith | whereIEndsWith | whereIContains
  | whereNull | whereNotNull
  | whereArrayContains | whereArrayContainsAny
  | whereIn | whereJoin | whereOr
  | sortAsc | sortDesc | select
deriving DecidableEq, Repr

def Call.name : Call → String
  | whereEq => "where_eq"
  | whereNe => "where_ne"
  | whereGt => "where_gt"
  | whereGte => "where_gte"
  | whereLt => "where_lt"
  | whereLte => "where_lte"
  | whereNotGt => "where_not_gt"
  | whereNotGte => "where_not_gte"
  | whereNotLt => "where_not_lt"
  | whereNotLte => "where_not_lte"
  | whereBetween => "where_between"
  | whereStartsWith => "where_starts_with"
  | whereEndsWith => "where_ends_with"
  | whereContains => "where_contains"
  | whereIStartsWith => "where_istarts_with"
  | whereIEndsWith => "where_iends_with"
  | whereIContains => "where_icontains"
  | whereNull => "where_null"
  | whereNotNull => "where_not_null"
  | whereArrayContains => "where_array_contains"
  | whereArrayContainsAny => "where_array_contains_any"
  | whereIn => "where_in"
  | whereJoin => "where_join"
  | whereOr => "where_or"
  | sortAsc => "sort_asc"
  | sortDesc => "sort_desc"
  | select => "select"

/-- The two calls after which no condition can be added. -/
inductive Closing where
  | whereIn
  | whereOr
deriving DecidableEq, Repr

def Closing.call : Closing → Call
  | whereIn => .whereIn
  | whereOr => .whereOr

/-- A call at a point of the chain where it cannot be honoured. -/
inductive ChainViolation where
  | afterTerminal (call : Call) (terminal : Closing)
  | inInsideJoin (relation : String)
  | inInsideOr
  /-- The sub-query of a join ended as a list of alternatives. -/
  | orInsideJoin (relation : String)
  /-- A sub-query is not the one that was handed out. -/
  | foreignBuilder (call : Call)
deriving DecidableEq, Repr

/-- What is wrong with a value. -/
inductive ValueFault where
  | notScalar (call : Call) (v : Value)
  | noBranch
  | foreignQuery (entity repository : String)
  /-- A text that writes no list of directives. -/
  | malformed
deriving Repr

/-- What a document store cannot do. -/
inductive Limitation where
  | relationLoading
  | relationIds
  | throughRelation (field : String)
  | nestedUnder (field : String)
  | emptyList (kind : String)
  | negation (kind : String)
  | pattern (kind : String)
deriving DecidableEq, Repr

/-- What is wrong with a configuration. -/
inductive ConfigFault where
  | pageSizes (default max : UInt64)
  /-- A text that writes no configuration. -/
  | malformed
deriving DecidableEq, Repr

inductive QueryError where
  | chain (violation : ChainViolation)
  | unknownEntity (name : String)
  | unknownField (entity field : String)
  | notARelation (entity field path : String)
  | relationLeaf (entity field path : String)
  | nestedPath (call : Call) (path : String)
  | invalidPath (path : String)
  | invalidValue (fault : ValueFault)
  | unsupported (limitation : Limitation)
  | invalidToken
  | config (fault : ConfigFault)
  | storage (message : String)
deriving Repr

/-- Stops with an error if `p` holds. -/
def refuseIf (p : Prop) [Decidable p] (e : QueryError) : Except QueryError Unit :=
  if p then .error e else .ok ()

theorem refuseIf_eq_ok {p : Prop} [Decidable p] {e : QueryError} {u : Unit} :
    refuseIf p e = .ok u ↔ ¬p := by
  by_cases h : p <;> simp [refuseIf, h]

theorem bind_eq_ok {ε α β : Type} {x : Except ε α} {f : α → Except ε β} {b : β} :
    (x >>= f) = .ok b ↔ ∃ a, x = .ok a ∧ f a = .ok b := by
  cases x <;> simp [bind, Except.bind]

theorem refuseIf_ne_error {p : Prop} [Decidable p] {e e' : QueryError} (h : e ≠ e') :
    refuseIf p e ≠ .error e' := by
  by_cases hp : p <;> simp [refuseIf, hp, h]

theorem bind_ne_error {ε α β : Type} {x : Except ε α} {f : α → Except ε β} {e : ε}
    (hx : x ≠ .error e) (hf : ∀ a, x = .ok a → f a ≠ .error e) : (x >>= f) ≠ .error e := by
  cases x with
  | error e' =>
    intro h
    cases h
    exact hx rfl
  | ok a => exact hf a rfl

theorem mapM_ne_error {ε α β : Type} {f : α → Except ε β} {e : ε} {as : List α}
    (h : ∀ a ∈ as, f a ≠ .error e) : as.mapM f ≠ .error e := by
  induction as with
  | nil => nofun
  | cons a as ih =>
    obtain ⟨ha, has⟩ := List.forall_mem_cons.1 h
    rw [List.mapM_cons]
    exact bind_ne_error ha fun _ _ => bind_ne_error (ih has) nofun

theorem exists_ok_of_isSome {ε α : Type} {x : Except ε α} (h : x.toOption.isSome = true) :
    ∃ a, x = .ok a := by
  cases x with
  | error e => cases h
  | ok a => exact ⟨a, rfl⟩

theorem exists_ok_of_any {ε α : Type} {x : Except ε α} {p : α → Bool}
    (h : x.toOption.any p = true) : ∃ a, x = .ok a ∧ p a = true := by
  cases x with
  | error e => cases h
  | ok a => exact ⟨a, rfl, h⟩

theorem exists_ok_of_mem_mapM {ε α β : Type} {f : α → Except ε β} {as : List α} {bs : List β}
    (h : as.mapM f = .ok bs) : ∀ a ∈ as, ∃ b, f a = .ok b := by
  induction as generalizing bs with
  | nil => simp
  | cons a as ih =>
    rw [List.mapM_cons] at h
    obtain ⟨b, hb, h⟩ := bind_eq_ok.1 h
    obtain ⟨bs', hbs', _⟩ := bind_eq_ok.1 h
    exact List.forall_mem_cons.2 ⟨⟨b, hb⟩, ih hbs'⟩

/-! ### Wording -/

/-- A name in a sentence. -/
def named (s : String) : String := "`" ++ s ++ "`"

def ChainViolation.message : ChainViolation → String
  | afterTerminal call terminal =>
    named call.name ++ " cannot be chained after " ++ named terminal.call.name ++ "; move " ++
      named terminal.call.name ++ " to the end of the chain"
  | inInsideJoin relation =>
    "`where_in` is not allowed inside " ++ named ("where_join(\"" ++ relation ++ "\")") ++
      "; filter on an explicit foreign-key field of the parent instead"
  | inInsideOr =>
    "`where_in` is not allowed inside a `where_or` branch; use one branch per value with `where_eq`"
  | orInsideJoin relation =>
    "`where_or` is not allowed inside " ++ named ("where_join(\"" ++ relation ++ "\")") ++
      "; use `where_or` on the parent query with nested paths"
  | foreignBuilder call =>
    "the " ++ named call.name ++ " closure must return the builder it was given; " ++
      "chain the conditions onto its argument instead of starting a new query"

def ValueFault.message : ValueFault → String
  | notScalar call v => named call.name ++ " needs a scalar, got " ++ v.describe
  | noBranch => "`where_or` needs at least one branch"
  | foreignQuery entity repository =>
    "query for " ++ named entity ++ " given to the " ++ named repository ++ " repository"
  | malformed => "malformed directives"

def Limitation.message : Limitation → String
  | relationLoading => "relation loading"
  | relationIds => "load_relation_ids"
  | throughRelation field => "filtering through relation " ++ named field
  | nestedUnder field => "nested path under " ++ named field
  | emptyList kind => "empty " ++ named kind ++ " list"
  | negation kind => "not(" ++ kind ++ ")"
  | pattern kind => kind

def ConfigFault.message : ConfigFault → String
  | pageSizes default max =>
    "default_page_size " ++ toString default ++ " exceeds max_page_size " ++ toString max
  | malformed => "malformed configuration"

def QueryError.message : QueryError → String
  | chain violation => violation.message
  | unknownEntity name => "unknown entity " ++ named name
  | unknownField entity field => named entity ++ " has no field " ++ named field
  | notARelation entity field path =>
    named field ++ " on " ++ named entity ++ " is not a relation, so " ++ named path ++
      " cannot traverse it"
  | relationLeaf entity field path =>
    named path ++ " ends on the relation " ++ named field ++ " of " ++ named entity ++
      "; name a field of the related entity, e.g. " ++ named (path ++ ".id")
  | nestedPath call path => named call.name ++ " takes a direct field, got " ++ named path
  | invalidPath path => "invalid field path " ++ named path
  | invalidValue fault => "invalid value: " ++ fault.message
  | unsupported limitation =>
    limitation.message ++ " is not supported by the document provider"
  | invalidToken => "invalid pagination token"
  | config fault => "invalid configuration: " ++ fault.message
  | storage message => "storage error: " ++ message

end RowQuery
