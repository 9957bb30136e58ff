import RowQuery.Document.Provider

/-!
# How a repository answers

A query is prepared, translated and then either read off the source or served from the rows that are
kept. What `find` does is to run the prepared query (`find_eq_run`), and `findPage`
answers with the same rows and leaves the same repository behind (`findPage_eq_find`).
-/

namespace RowQuery

namespace Repository

/-! ### Preparation -/

/-- The policy that is settled keeps rows as long as the one that was asked for. -/
theorem resolve_settleCache (c : Config) (policy : CachePolicy) (d : Duration) :
    (settleCache c policy).resolve d = policy.resolve c.cacheTime := by
  cases policy <;> rfl

variable {σ : Schema} {Native Source : Type} {P : Provider Native Source} {r : Repository σ P}
  {q : QuerySpec} {native : Native} {now : Nat}

theorem prepare_eq_ok {p : QuerySpec} :
    r.prepare q = .ok p ↔
      q.entity = r.shape.name ∧
        p = { q with
          pagination := boundPage r.config q.pagination
          cache := settleCache r.config q.cache } := by
  simp only [prepare, bind_eq_ok, refuseIf_eq_ok]
  constructor
  · rintro ⟨_, hentity, h⟩
    cases h
    exact ⟨by simpa using hentity, rfl⟩
  · rintro ⟨hentity, rfl⟩
    exact ⟨(), by simpa using hentity, rfl⟩

/-! ### Answers -/

theorem cache_of_new {entity : String} {source : Source} (h : new σ P entity source = .ok r) :
    r.cache = [] := by
  unfold new at h
  split at h
  · cases h
    rfl
  · cases h

theorem run_of_resolve_eq_none (hcompile : P.compile σ q = .ok native)
    (hcache : q.cache.resolve r.config.cacheTime = none) : r.run now q = r.execute native := by
  simp only [run, hcompile, hcache]

theorem compile_eq_ok :
    r.compile q = .ok native ↔ ∃ p, r.prepare q = .ok p ∧ P.compile σ p = .ok native :=
  bind_eq_ok

theorem find_of_compile_error {e : QueryError} (h : r.compile q = .error e) :
    r.find now q = (.error e, r) := by
  rw [compile] at h
  rw [find]
  cases hprepare : r.prepare q with
  | error e' =>
    rw [hprepare] at h
    cases h
    rfl
  | ok p =>
    rw [hprepare] at h
    have hcompile : P.compile σ p = .error e := h
    simp only [run, hcompile]

/-- What `find` does with a query that can be translated is to run the prepared query. -/
theorem find_eq_run (h : r.compile q = .ok native) :
    ∃ p, P.compile σ p = .ok native ∧
      p.cache.resolve r.config.cacheTime = q.cache.resolve r.config.cacheTime ∧
      r.find now q = r.run now p := by
  obtain ⟨p, hprepare, hcompile⟩ := compile_eq_ok.1 h
  obtain ⟨_, rfl⟩ := prepare_eq_ok.1 hprepare
  refine ⟨_, hcompile, resolve_settleCache _ _ _, ?_⟩
  simp only [find, hprepare]

section Cached

variable {time : Duration} {rows : List Json} (hcompile : r.compile q = .ok native)

include hcompile

theorem find_uncached (hcache : q.cache.resolve r.config.cacheTime = none) :
    r.find now q = r.execute native := by
  obtain ⟨p, hp, hresolve, hfind⟩ := find_eq_run hcompile
  rw [hfind, run_of_resolve_eq_none hp (hresolve.trans hcache)]

variable (hcache : q.cache.resolve r.config.cacheTime = some time)

include hcache

theorem find_kept (hkept : r.cache.find? now (P.key native) = some rows) :
    r.find now q = (.ok rows, r) := by
  obtain ⟨p, hp, hresolve, hfind⟩ := find_eq_run hcompile
  rw [hfind]
  simp only [run, hp, hresolve, hcache, hkept]

theorem find_unkept (hnone : r.cache.find? now (P.key native) = none)
    (hexecute : P.execute r.source native = .ok rows) :
    r.find now q =
      (.ok rows, { r with
        executions := r.executions + 1
        cache := r.cache.remember now (P.key native) time rows }) := by
  obtain ⟨p, hp, hresolve, hfind⟩ := find_eq_run hcompile
  rw [hfind]
  simp only [run, hp, hresolve, hcache, hnone, execute, hexecute]

theorem find_failed {e : QueryError} (hnone : r.cache.find? now (P.key native) = none)
    (hexecute : P.execute r.source native = .error e) :
    r.find now q = (.error e, { r with executions := r.executions + 1 }) := by
  obtain ⟨p, hp, hresolve, hfind⟩ := find_eq_run hcompile
  rw [hfind]
  simp only [run, hp, hresolve, hcache, hnone, execute, hexecute]

end Cached

/-- A query is refused, served with rows that are kept, or put to the source, whose rows may be kept
from then on. -/
theorem find_cases (r : Repository σ P) (now : Nat) (q : QuerySpec) :
    (∃ e, r.compile q = .error e ∧ r.find now q = (.error e, r)) ∨
      ∃ native, r.compile q = .ok native ∧
        ((∃ rows, r.cache.find? now (P.key native) = some rows ∧
            r.find now q = (.ok rows, r)) ∨
          ∃ cache,
            r.find now q = (P.execute r.source native,
              { r with executions := r.executions + 1, cache := cache }) ∧
            (cache = r.cache ∨ ∃ time rows, P.execute r.source native = .ok rows ∧
              cache = r.cache.remember now (P.key native) time rows)) := by
  cases hcompile : r.compile q with
  | error e => exact .inl ⟨e, rfl, find_of_compile_error hcompile⟩
  | ok native =>
    refine .inr ⟨native, rfl, ?_⟩
    cases hcache : q.cache.resolve r.config.cacheTime with
    | none => exact .inr ⟨r.cache, find_uncached hcompile hcache, .inl rfl⟩
    | some time =>
      cases hkept : r.cache.find? now (P.key native) with
      | some rows => exact .inl ⟨rows, rfl, find_kept hcompile hcache hkept⟩
      | none =>
        cases hexecute : P.execute r.source native with
        | error e => exact .inr ⟨r.cache, find_failed hcompile hcache hkept hexecute, .inl rfl⟩
        | ok rows =>
          exact .inr ⟨_, find_unkept hcompile hcache hkept hexecute, .inr ⟨time, rows, rfl, rfl⟩⟩

/-- A page has the rows that the query is answered with, and costs as much. -/
theorem findPage_eq_find (now : Nat) (q : QuerySpec) :
    (r.findPage now q).1.map Page.rows = (r.find now q).1 ∧
      (r.findPage now q).2 = (r.find now q).2 := by
  simp only [findPage, find]
  cases r.prepare q with
  | error e => exact ⟨rfl, rfl⟩
  | ok p =>
    simp only
    generalize r.run now p = answer
    obtain ⟨answer, r'⟩ := answer
    cases answer with
    | error e => exact ⟨rfl, rfl⟩
    | ok rows => exact ⟨rfl, rfl⟩

end Repository

end RowQuery
