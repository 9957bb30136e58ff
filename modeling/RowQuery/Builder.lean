import RowQuery.Directive
import RowQuery.Path

/-!
# Builders

A builder collects directives into a specification and checks each against the schema as it comes.
Membership and alternatives close the chain: from then on it takes shaping steps only. Sub-queries
of joins and alternatives are builders of their own, which the parent takes back only if it handed
them out.
-/

namespace RowQuery

/-- Where a builder stands in relation to its parent. -/
inductive Scope where
  | root
  | join (relation : FieldPath)
  | branch
deriving DecidableEq, Repr

inductive Stage where
  | accepting
  /-- Conditions can no longer be added. -/
  | closed (terminal : Closing)
deriving DecidableEq, Repr

structure Builder (σ : Schema) where
  shape : Shape
  registered : σ.shape? shape.name = some shape
  scope : Scope
  stage : Stage
  spec : QuerySpec

namespace Builder

variable {σ : Schema}

/-- A builder on a registered shape, for all its rows. -/
def start (shape : Shape) (registered : σ.shape? shape.name = some shape) (scope : Scope) :
    Builder σ :=
  ⟨shape, registered, scope, .accepting, .all shape.name⟩

def new (σ : Schema) (entity : String) : Except QueryError (Builder σ) :=
  match h : σ.shape? entity with
  | some shape => .ok (start shape (Schema.shape?_name h) .root)
  | none => .error (.unknownEntity entity)

variable (b : Builder σ)

def isTerminal : Bool :=
  match b.stage with
  | .accepting => false
  | .closed _ => true

def ensureOpen (call : Call) : Except QueryError Unit :=
  match b.stage with
  | .accepting => .ok ()
  | .closed terminal => .error (.chain (.afterTerminal call terminal))

def close (terminal : Closing) : Builder σ := { b with stage := .closed terminal }

/-- The conjunction so far. -/
def tree (call : Call) : Except QueryError PredicateTree :=
  match b.spec.predicate with
  | .all t => .ok t
  | .any _ => .error (.chain (.afterTerminal call .whereOr))

def mergeTree (call : Call) (fragment : PredicateTree) : Except QueryError (Builder σ) := do
  let t ← b.tree call
  return { b with spec := { b.spec with predicate := .all (t.merge fragment) } }

def declare (fragment : RelationTree) : Builder σ :=
  { b with spec := { b.spec with relations := b.spec.relations.merge fragment } }

/-! ### Conditions -/

/-- Puts a condition at the end of a path and declares the relations that the path goes through. -/
def write (call : Call) (raw : String) (c : Condition) : Except QueryError (Builder σ) := do
  b.ensureOpen call
  let path ← FieldPath.parse raw
  let _ ← path.resolve σ b.shape
  let b := match path.relationPrefix? with
    | some relation => b.declare relation.declaration
    | none => b
  b.mergeTree call (path.predicate c)

def filter (path : String) (f : Filter) : Except QueryError (Builder σ) := do
  match ← f.condition? with
  | none =>
    b.ensureOpen f.call
    return b
  | some c => b.write f.call path c

/-- Only the root takes a membership test, and it closes the chain. -/
def oneOf (path : String) (vs : List Value) : Except QueryError (Builder σ) := do
  b.ensureOpen .whereIn
  match b.scope with
  | .join relation => throw (.chain (.inInsideJoin relation.text))
  | .branch => throw (.chain .inInsideOr)
  | .root => return (← b.write .whereIn path (.op (.oneOf vs))).close .whereIn

/-! ### Joins -/

/-- The sub-query of a join, on the entity that the relation leads to. -/
def joinScope (relation : String) : Except QueryError (FieldPath × Builder σ) := do
  b.ensureOpen .whereJoin
  let path ← FieldPath.parse relation
  match h : path.resolveRelations σ b.shape with
  | .ok s =>
    return (path, start s (FieldPath.registered_of_foldlM_step b.registered h) (.join path))
  | .error e => throw e

/-- Takes back the sub-query of a join: its relations and its conditions go under the relation. -/
def join (path : FieldPath) (sub : Builder σ) : Except QueryError (Builder σ) := do
  b.ensureOpen .whereJoin
  let s ← path.resolveRelations σ b.shape
  refuseIf (sub.scope ≠ .join path ∨ sub.shape ≠ s) (.chain (.foreignBuilder .whereJoin))
  match sub.spec.predicate with
  | .any _ => throw (.chain (.orInsideJoin path.text))
  | .all t =>
    let b := b.declare (path.declarationWith <|
      if sub.spec.relations.isEmpty then .load else .nested sub.spec.relations)
    if t.isEmpty then return b else b.mergeTree .whereJoin (path.predicate (.nested t))

/-! ### Alternatives -/

/-- The start of every alternative: the conjunction so far, and nothing else. -/
def branchScope : Except QueryError (Builder σ) := do
  b.ensureOpen .whereOr
  let t ← b.tree .whereOr
  let sub := start b.shape b.registered .branch
  return { sub with spec := { sub.spec with predicate := .all t } }

/-- Takes back the branches of alternatives, which replace the conjunction and close the chain. -/
def or (branches : List (Builder σ)) : Except QueryError (Builder σ) := do
  b.ensureOpen .whereOr
  refuseIf (branches = []) (.invalidValue .noBranch)
  refuseIf (∃ sub ∈ branches, sub.scope ≠ .branch ∨ sub.shape ≠ b.shape)
    (.chain (.foreignBuilder .whereOr))
  let b := branches.foldl (fun b sub => b.declare sub.spec.relations) b
  let alternatives := branches.flatMap fun sub => sub.spec.predicate.alternatives
  return { b with spec := { b.spec with predicate := .any alternatives } }.close .whereOr

/-! ### Shaping -/

/-- A field of the entity itself that is no relation. -/
def directField (call : Call) (raw : String) : Except QueryError String := do
  let path ← FieldPath.parse raw
  refuseIf path.isNested (.nestedPath call raw)
  let field ← b.shape.requireField raw
  refuseIf field.isRelation (.relationLeaf b.shape.name raw raw)
  return raw

/-- A new sort key comes last; one that is there already keeps its place. -/
def setOrder (field : String) (direction : Direction) : List OrderBy → List OrderBy
  | [] => [⟨field, direction⟩]
  | o :: os =>
    if o.field = field then ⟨field, direction⟩ :: os else o :: setOrder field direction os

def sort (direction : Direction) (raw : String) : Except QueryError (Builder σ) := do
  let call := match direction with
    | .asc => .sortAsc
    | .desc => .sortDesc
  let field ← b.directField call raw
  return { b with spec := { b.spec with order := setOrder field direction b.spec.order } }

def select (raw : String) : Except QueryError (Builder σ) := do
  let field ← b.directField .select raw
  return { b with spec := { b.spec with selection := insertName field b.spec.selection } }

def fetchRelation (hops : List String) : Except QueryError (Builder σ) := do
  let path ← FieldPath.ofHops hops
  let _ ← path.resolveRelations σ b.shape
  return b.declare path.declaration

/-- Resumes from a page token; a blank one says nothing. -/
def next (token : String) : Except QueryError (Builder σ) :=
  if Text.trim token.toList = [] then .ok b
  else do
    let cursor ← Cursor.decode token
    return { b with spec.pagination.cursor := some cursor }

/-- Sets the page size; zero says nothing. -/
def limit (n : UInt64) : Builder σ :=
  if n = 0 then b else { b with spec.pagination.limit := some n }

def shaped (s : Shaping) : Except QueryError (Builder σ) :=
  match s with
  | .sort direction field => b.sort direction field
  | .select field => b.select field
  | .fetchRelation hops => b.fetchRelation hops
  | .loadRelationIds => .ok { b with spec.loadRelationIds := true }
  | .cache policy => .ok { b with spec.cache := policy }
  | .next token => b.next token
  | .limit n => .ok (b.limit n)

/-- The token of a request first, then its page size. -/
def page (r : PageRequest) : Except QueryError (Builder σ) := do
  let b ← r.next.elim (.ok b) b.next
  return r.limit.elim b b.limit

/-! ### Directives -/

mutual

def apply (b : Builder σ) : Directive → Except QueryError (Builder σ)
  | .filter path f => b.filter path f
  | .oneOf path vs => b.oneOf path vs
  | .join relation directives => do
    let (path, sub) ← b.joinScope relation
    b.join path (← sub.applyAll directives)
  | .or branches => do b.or (← b.applyBranches branches)
  | .shape s => b.shaped s

def applyAll (b : Builder σ) : List Directive → Except QueryError (Builder σ)
  | [] => .ok b
  | d :: ds => do (← b.apply d).applyAll ds

/-- One sub-query for every branch. -/
def applyBranches (b : Builder σ) : List (List Directive) → Except QueryError (List (Builder σ))
  | [] => .ok []
  | ds :: branches => do
    let sub ← b.branchScope
    let sub ← sub.applyAll ds
    return sub :: (← b.applyBranches branches)

end

end Builder

end RowQuery
