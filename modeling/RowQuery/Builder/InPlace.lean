import RowQuery.Builder

/-!
# Builders that are changed where they stand

Every call once more, as steps that write to one builder part by part. A step that stops with an
error leaves the builder behind with all that was written until then. Only the sub-queries of joins
and alternatives are builders of their own, and they are lost when a step stops inside.
-/

namespace RowQuery

/-- A step on a builder, which is there afterwards whether the step stopped with an error or not. -/
abbrev InPlace (σ : Schema) := EStateM QueryError (Builder σ)

namespace InPlace

variable {σ : Schema} {α : Type}

/-- The end of a step that has changed nothing. -/
def unchanged (b : Builder σ) : Except QueryError α → EStateM.Result QueryError (Builder σ) α
  | .ok a => .ok a b
  | .error e => .error e b

/-- Looks at the builder, and stops there if something is wrong. -/
def check (f : Builder σ → Except QueryError α) : InPlace σ α := fun b => unchanged b (f b)

def change (f : Builder σ → Builder σ) : InPlace σ Unit := fun b => .ok () (f b)

/-- The result of a step, without the builder of one that stopped. -/
def result (step : InPlace σ Unit) (b : Builder σ) : Except QueryError (Builder σ) :=
  match step b with
  | .ok _ b' => .ok b'
  | .error e _ => .error e

/-- Takes the step on another builder. -/
def elsewhere (sub : Builder σ) (step : InPlace σ Unit) : InPlace σ (Builder σ) :=
  check fun _ => step.result sub

/-! ### Conditions -/

def mergeTree (call : Call) (fragment : PredicateTree) : InPlace σ Unit := do
  let t ← check (·.tree call)
  change fun b => { b with spec := { b.spec with predicate := .all (t.merge fragment) } }

def write (call : Call) (raw : String) (c : Condition) : InPlace σ Unit := do
  check (·.ensureOpen call)
  let path ← check fun _ => FieldPath.parse raw
  let _ ← check fun b => path.resolve σ b.shape
  match path.relationPrefix? with
  | some relation => change (·.declare relation.declaration)
  | none => pure ()
  mergeTree call (path.predicate c)

def filter (path : String) (f : Filter) : InPlace σ Unit := do
  match ← check fun _ => f.condition? with
  | none => check (·.ensureOpen f.call)
  | some c => write f.call path c

/-- Where a membership test may stand. -/
def checkRoot : InPlace σ Unit :=
  check fun b => match b.scope with
    | .join relation => .error (.chain (.inInsideJoin relation.text))
    | .branch => .error (.chain .inInsideOr)
    | .root => .ok ()

def oneOf (path : String) (vs : List Value) : InPlace σ Unit := do
  check (·.ensureOpen .whereIn)
  checkRoot
  write .whereIn path (.op (.oneOf vs))
  change (·.close .whereIn)

/-! ### Joins and alternatives -/

def join (path : FieldPath) (sub : Builder σ) : InPlace σ Unit := do
  check (·.ensureOpen .whereJoin)
  let s ← check fun b => path.resolveRelations σ b.shape
  check fun _ => refuseIf (sub.scope ≠ .join path ∨ sub.shape ≠ s)
    (.chain (.foreignBuilder .whereJoin))
  match sub.spec.predicate with
  | .any _ => throw (.chain (.orInsideJoin path.text))
  | .all t =>
    change (·.declare (path.declarationWith <|
      if sub.spec.relations.isEmpty then .load else .nested sub.spec.relations))
    if t.isEmpty then pure () else mergeTree .whereJoin (path.predicate (.nested t))

/-- Declares what the branches declare, one branch after the other. -/
def declareEach : List (Builder σ) → InPlace σ Unit
  | [] => pure ()
  | sub :: branches => do
    change (·.declare sub.spec.relations)
    declareEach branches

def or (branches : List (Builder σ)) : InPlace σ Unit := do
  check (·.ensureOpen .whereOr)
  check fun _ => refuseIf (branches = []) (.invalidValue .noBranch)
  check fun b => refuseIf (∃ sub ∈ branches, sub.scope ≠ .branch ∨ sub.shape ≠ b.shape)
    (.chain (.foreignBuilder .whereOr))
  declareEach branches
  let alternatives := branches.flatMap fun sub => sub.spec.predicate.alternatives
  change fun b => { b with spec := { b.spec with predicate := .any alternatives } }
  change (·.close .whereOr)

/-! ### Shaping -/

def sort (direction : Direction) (raw : String) : InPlace σ Unit := do
  let call := match direction with
    | .asc => .sortAsc
    | .desc => .sortDesc
  let field ← check (·.directField call raw)
  change fun b =>
    { b with spec := { b.spec with order := Builder.setOrder field direction b.spec.order } }

def select (raw : String) : InPlace σ Unit := do
  let field ← check (·.directField .select raw)
  change fun b => { b with spec := { b.spec with selection := insertName field b.spec.selection } }

def fetchRelation (hops : List String) : InPlace σ Unit := do
  let path ← check fun _ => FieldPath.ofHops hops
  let _ ← check fun b => path.resolveRelations σ b.shape
  change (·.declare path.declaration)

def next (token : String) : InPlace σ Unit :=
  if Text.trim token.toList = [] then pure ()
  else do
    let cursor ← check fun _ => Cursor.decode token
    change fun b => { b with spec.pagination.cursor := some cursor }

def shaped (s : Shaping) : InPlace σ Unit :=
  match s with
  | .sort direction field => sort direction field
  | .select field => select field
  | .fetchRelation hops => fetchRelation hops
  | .loadRelationIds => change fun b => { b with spec.loadRelationIds := true }
  | .cache policy => change fun b => { b with spec.cache := policy }
  | .next token => next token
  | .limit n => change (·.limit n)

/-! ### Directives -/

mutual

def apply : Directive → InPlace σ Unit
  | .filter path f => filter path f
  | .oneOf path vs => oneOf path vs
  | .join relation directives => do
    let (path, sub) ← check (·.joinScope relation)
    let sub ← elsewhere sub (applyAll directives)
    join path sub
  | .or branches => do
    let subs ← applyBranches branches
    or subs
  | .shape s => shaped s

def applyAll : List Directive → InPlace σ Unit
  | [] => pure ()
  | d :: ds => do
    apply d
    applyAll ds

/-- One sub-query for every branch. -/
def applyBranches : List (List Directive) → InPlace σ (List (Builder σ))
  | [] => pure []
  | ds :: branches => do
    let seed ← check (·.branchScope)
    let sub ← elsewhere seed (applyAll ds)
    let subs ← applyBranches branches
    return sub :: subs

end

end InPlace

end RowQuery
