import RowQuery.Builder.Chain
import RowQuery.Config
import RowQuery.Json.Printer
import RowQuery.Repository.Cache

/-!
# Repositories

A repository answers the queries about one entity from a source of rows. It fills in what a query
leaves open, puts it into the language of the source, and serves rows again where the query allows
it. A provider knows the language: how a specification is put into it, and how a source answers.
-/

namespace RowQuery

/-- A language of queries, and the answers that sources give to them. -/
structure Provider (Native Source : Type) where
  compile : Schema → QuerySpec → Except QueryError Native
  /-- What a query is serialized to. -/
  toJson : Native → Json
  execute : Source → Native → Except QueryError (List Json)

/-- The JSON text of a query, which its rows are kept under. -/
def Provider.key {Native Source : Type} (P : Provider Native Source) (native : Native) : String :=
  (P.toJson native).compact

/-- Rows, and the token of the page after them if they fill theirs. -/
structure Page where
  rows : List Json
  next : Option String
deriving DecidableEq, Repr

structure Repository (σ : Schema) {Native Source : Type} (P : Provider Native Source) where
  shape : Shape
  registered : σ.shape? shape.name = some shape
  config : Config
  source : Source
  cache : RowCache
  /-- How often the source has been asked. -/
  executions : Nat

namespace Repository

variable {σ : Schema} {Native Source : Type} {P : Provider Native Source}

def new (σ : Schema) (P : Provider Native Source) (entity : String) (source : Source) :
    Except QueryError (Repository σ P) :=
  match h : σ.shape? entity with
  | some shape => .ok ⟨shape, Schema.shape?_name h, .standard, source, [], 0⟩
  | none => .error (.unknownEntity entity)

variable (r : Repository σ P)

def withConfig (config : Config) : Repository σ P := { r with config := config }

/-- The query for all rows. -/
def query : Query σ := ⟨.start r.shape r.registered .root, rfl⟩

/-! ### Preparation -/

/-- The page size that a query leaves open, and none past the largest. -/
def boundPage (c : Config) (p : Pagination) : Pagination :=
  let p := if p.pageSize?.isNone ∧ 0 < c.pageSize then { p with limit := some c.pageSize } else p
  if 0 < c.maxPageSize ∧ p.pageSize?.any (c.maxPageSize < ·) then
    { p with limit := some c.maxPageSize }
  else p

/-- A policy with a time of its own where it asks for the standard one. -/
def settleCache (c : Config) : CachePolicy → CachePolicy
  | .standard => .ttl c.cacheTime
  | policy => policy

/-- The specification with what it leaves open filled in. It has to be about the repository's
entity. -/
def prepare (q : QuerySpec) : Except QueryError QuerySpec := do
  refuseIf (q.entity ≠ r.shape.name) (.invalidValue (.foreignQuery q.entity r.shape.name))
  return { q with
    pagination := boundPage r.config q.pagination
    cache := settleCache r.config q.cache }

/-- The query in the language of the source. -/
def compile (q : QuerySpec) : Except QueryError Native := do
  P.compile σ (← r.prepare q)

/-! ### Answers -/

/-- Asks the source. -/
def execute (native : Native) : Except QueryError (List Json) × Repository σ P :=
  (P.execute r.source native, { r with executions := r.executions + 1 })

/-- Answers a prepared query at the moment `now`. -/
def run (now : Nat) (q : QuerySpec) : Except QueryError (List Json) × Repository σ P :=
  match P.compile σ q with
  | .error e => (.error e, r)
  | .ok native =>
    match q.cache.resolve r.config.cacheTime with
    | none => r.execute native
    | some time =>
      match r.cache.find? now (P.key native) with
      | some rows => (.ok rows, r)
      | none =>
        match r.execute native with
        | (.error e, r) => (.error e, r)
        | (.ok rows, r) =>
          (.ok rows, { r with cache := r.cache.remember now (P.key native) time rows })

/-- The rows of a query. -/
def find (now : Nat) (q : QuerySpec) : Except QueryError (List Json) × Repository σ P :=
  match r.prepare q with
  | .error e => (.error e, r)
  | .ok q => r.run now q

/-- Where the rows of a query begin and how many fill its page, if it has a page size. -/
def cursorOf (p : Pagination) : Option Cursor :=
  p.pageSize?.map fun limit => ⟨p.offset?.getD 0, limit⟩

/-- The rows of a query and the token of the next page. -/
def findPage (now : Nat) (q : QuerySpec) : Except QueryError Page × Repository σ P :=
  match r.prepare q with
  | .error e => (.error e, r)
  | .ok q =>
    match r.run now q with
    | (.error e, r) => (.error e, r)
    | (.ok rows, r) =>
      let next := (cursorOf q.pagination).bind (·.following? rows.length)
      (.ok ⟨rows, next.map Cursor.encode⟩, r)

end Repository

end RowQuery
