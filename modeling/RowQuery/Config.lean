import RowQuery.Caching
import RowQuery.Error

/-!
# Configuration

What a repository assumes where a query says nothing.
-/

namespace RowQuery

/-- How long rows are kept where no configuration says so. -/
def standardCacheTime : Duration := ⟨1, 0, by decide⟩

structure Config where
  /-- How long rows are kept for a query that asks for caching without a time. -/
  cacheMillis : UInt64
  /-- The page size of a query that gives none; zero for no limit. -/
  pageSize : UInt64
  /-- The largest page size that is served; zero for any. -/
  maxPageSize : UInt64
deriving DecidableEq, Repr

namespace Config

def standard : Config := ⟨1000, 0, 0⟩

def cacheTime (c : Config) : Duration := .ofMillis c.cacheMillis

def validate (c : Config) : Except QueryError Config :=
  if 0 < c.maxPageSize ∧ c.maxPageSize < c.pageSize then
    .error (.config (.pageSizes c.pageSize c.maxPageSize))
  else .ok c

/-- A setting that may be absent. -/
def setting? (standard : UInt64) : Option Source → Option UInt64
  | none => some standard
  | some j => j.uint64?

/-- Settings by name, or in order from the first on. Other members are passed over. -/
def ofSource? : Source → Option Config
  | .arr items =>
    if items.length ≤ 3 then make items[0]? items[1]? items[2]? else none
  | .obj ms => do
    let fields ← (Source.obj ms).fields?
    make (← Source.unique? "default_cache_ms" fields) (← Source.unique? "default_page_size" fields)
      (← Source.unique? "max_page_size" fields)
  | _ => none
where
  make (cacheMillis pageSize maxPageSize : Option Source) : Option Config := do
    return ⟨← setting? standard.cacheMillis cacheMillis, ← setting? standard.pageSize pageSize,
      ← setting? standard.maxPageSize maxPageSize⟩

def parse (s : String) : Except QueryError Config :=
  match (Source.readText? s).bind ofSource? with
  | some c => c.validate
  | none => .error (.config .malformed)

end Config

end RowQuery
