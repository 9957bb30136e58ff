import RowQuery.Proofs.Path
import RowQuery.Proofs.Repository.Answer

/-!
# Preparing a query

Before a query is translated, the repository settles how many rows a page has and how long rows are
kept. The page size is the one that the query gives, or else the configured one, cut down to the
largest that is served (`pageSize?_boundPage`). Nothing else of the query changes, and a query that
was prepared is not changed by preparing it again (`exists_prepared`).
-/

namespace RowQuery

/-! ### Configured sizes -/

namespace Config

variable (c : Config)

/-- The page size of a query that gives none. -/
def standardSize? : Option UInt64 := if 0 < c.pageSize then some c.pageSize else none

/-- A page size, cut down to the largest that is served. -/
def cutSize (n : UInt64) : UInt64 :=
  if 0 < c.maxPageSize ∧ c.maxPageSize < n then c.maxPageSize else n

variable {c} {n : UInt64}

theorem standardSize?_eq_none : c.standardSize? = none ↔ c.pageSize = 0 := by
  by_cases h : c.pageSize = 0 <;> simp [standardSize?, UInt64.pos_iff_ne_zero, h]

theorem standardSize?_ne_zero : c.standardSize? ≠ some 0 := by
  intro h
  unfold standardSize? at h
  split at h
  · rename_i hpos
    exact UInt64.pos_iff_ne_zero.1 hpos (Option.some.inj h)
  · cases h

theorem cutSize_le (h : 0 < c.maxPageSize) : c.cutSize n ≤ c.maxPageSize := by
  unfold cutSize
  split
  · exact UInt64.le_refl _
  · rename_i hcut
    exact UInt64.not_lt.1 fun hlt => hcut ⟨h, hlt⟩

theorem cutSize_of_le (h : 0 < c.maxPageSize → n ≤ c.maxPageSize) : c.cutSize n = n := by
  refine if_neg ?_
  rintro ⟨hpos, hlt⟩
  exact UInt64.not_le.2 hlt (h hpos)

theorem cutSize_ne_zero (h : n ≠ 0) : c.cutSize n ≠ 0 := by
  unfold cutSize
  split
  · rename_i hcut
    exact UInt64.pos_iff_ne_zero.1 hcut.1
  · exact h

end Config

@[simp] theorem Pagination.pageSize?_limit (p : Pagination) (n : UInt64) :
    ({ p with limit := some n } : Pagination).pageSize? = some n := rfl

namespace Repository

/-! ### Pages -/

section Pages

variable (c : Config) (p : Pagination)

theorem cursor_boundPage : (boundPage c p).cursor = p.cursor := by
  simp only [boundPage]
  split <;> split <;> rfl

theorem offset?_boundPage : (boundPage c p).offset? = p.offset? := by
  rw [Pagination.offset?, cursor_boundPage, Pagination.offset?]

/-- The page size that a query gives goes before the configured one, and none is past the largest
that is served, the configured one included. -/
theorem pageSize?_boundPage :
    (boundPage c p).pageSize? = (p.pageSize? <|> c.standardSize?).map c.cutSize := by
  have hassumed : (if p.pageSize?.isNone ∧ 0 < c.pageSize then
      { p with limit := some c.pageSize } else p).pageSize? =
        (p.pageSize? <|> c.standardSize?) := by
    cases hsize : p.pageSize? with
    | none => by_cases hpos : 0 < c.pageSize <;> simp [Config.standardSize?, hpos, hsize]
    | some n => simp [hsize]
  rw [← hassumed, boundPage]
  generalize (if p.pageSize?.isNone ∧ 0 < c.pageSize then
    { p with limit := some c.pageSize } else p) = p
  cases hsize : p.pageSize? with
  | none => simp [hsize]
  | some n =>
    by_cases hcut : 0 < c.maxPageSize ∧ c.maxPageSize < n
    · simp [Config.cutSize, hcut]
    · simp [Config.cutSize, hcut, hsize]

variable {c p}

theorem pageSize?_boundPage_ne_zero (h : p.pageSize? ≠ some 0) :
    (boundPage c p).pageSize? ≠ some 0 := by
  rw [pageSize?_boundPage, Ne, Option.map_eq_some_iff]
  rintro ⟨n, hn, hcut⟩
  refine Config.cutSize_ne_zero ?_ hcut
  rintro rfl
  cases hsize : p.pageSize? with
  | none => exact Config.standardSize?_ne_zero (by simpa [hsize] using hn)
  | some m => exact h (by simpa [hsize] using hn)

/-- A page that leaves nothing open and is not past the largest stays as it is. -/
theorem boundPage_eq_self (hopen : p.pageSize? = none → c.pageSize = 0)
    (hmax : ∀ n, p.pageSize? = some n → 0 < c.maxPageSize → n ≤ c.maxPageSize) :
    boundPage c p = p := by
  have hgiven : ¬(p.pageSize?.isNone ∧ 0 < c.pageSize) := by
    rintro ⟨hnone, hpos⟩
    exact UInt64.pos_iff_ne_zero.1 hpos (hopen (Option.isNone_iff_eq_none.1 hnone))
  have hwithin : ¬(0 < c.maxPageSize ∧ p.pageSize?.any (c.maxPageSize < ·)) := by
    rintro ⟨hpos, hany⟩
    obtain ⟨n, hn, hlt⟩ : ∃ n, p.pageSize? = some n ∧ c.maxPageSize < n := by
      simpa [Option.any_eq_true] using hany
    exact UInt64.not_le.2 hlt (hmax n hn hpos)
  simp only [boundPage, if_neg hgiven, if_neg hwithin]

theorem pageSize?_boundPage_eq_none :
    (boundPage c p).pageSize? = none ↔ p.pageSize? = none ∧ c.pageSize = 0 := by
  rw [pageSize?_boundPage, Option.map_eq_none_iff, ← Config.standardSize?_eq_none]
  cases p.pageSize? <;> simp

theorem le_of_pageSize?_boundPage {n : UInt64} (h : (boundPage c p).pageSize? = some n)
    (hpos : 0 < c.maxPageSize) : n ≤ c.maxPageSize := by
  rw [pageSize?_boundPage, Option.map_eq_some_iff] at h
  obtain ⟨m, _, rfl⟩ := h
  exact Config.cutSize_le hpos

theorem boundPage_boundPage : boundPage c (boundPage c p) = boundPage c p :=
  boundPage_eq_self (fun h => (pageSize?_boundPage_eq_none.1 h).2)
    fun _ h hpos => le_of_pageSize?_boundPage h hpos

end Pages

/-! ### Caching -/

theorem settleCache_ne_standard (c : Config) (policy : CachePolicy) :
    settleCache c policy ≠ .standard := by
  cases policy <;> nofun

theorem settleCache_of_ne (c : Config) {policy : CachePolicy} (h : policy ≠ .standard) :
    settleCache c policy = policy := by
  cases policy with
  | standard => exact absurd rfl h
  | disabled => rfl
  | ttl d => rfl

/-! ### Prepared queries -/

/-- `p` is the query `q` with its page and its caching settled, and nothing else changed. -/
structure Prepared (c : Config) (q p : QuerySpec) : Prop where
  size_le : ∀ n, p.pagination.pageSize? = some n → 0 < c.maxPageSize → n ≤ c.maxPageSize
  /-- A page size is left open only where nobody gives one. -/
  size_open : p.pagination.pageSize? = none → q.pagination.pageSize? = none ∧ c.pageSize = 0
  size_kept : ∀ n, q.pagination.pageSize? = some n → (0 < c.maxPageSize → n ≤ c.maxPageSize) →
    p.pagination.pageSize? = some n
  offset : p.pagination.offset? = q.pagination.offset?
  cursor : p.pagination.cursor = q.pagination.cursor
  policy_settled : p.cache ≠ .standard
  policy_kept : q.cache ≠ .standard → p.cache = q.cache
  /-- Rows are kept as long as the query says, or as configured where it leaves that open. -/
  time : p.cache.resolve c.cacheTime = q.cache.resolve c.cacheTime
  entity : p.entity = q.entity
  predicate : p.predicate = q.predicate
  relations : p.relations = q.relations
  order : p.order = q.order
  selection : p.selection = q.selection
  loadRelationIds : p.loadRelationIds = q.loadRelationIds

section Queries

variable {σ : Schema} {Native Source : Type} {P : Provider Native Source} {r : Repository σ P}
  {q p : QuerySpec}

theorem prepared_of_prepare (h : r.prepare q = .ok p) : Prepared r.config q p := by
  obtain ⟨_, rfl⟩ := prepare_eq_ok.1 h
  have hkept : ∀ n, q.pagination.pageSize? = some n →
      (0 < r.config.maxPageSize → n ≤ r.config.maxPageSize) →
      (boundPage r.config q.pagination).pageSize? = some n := by
    intro n hn hle
    rw [pageSize?_boundPage, hn]
    exact congrArg some (Config.cutSize_of_le hle)
  exact
    { size_le := fun n hn hpos => le_of_pageSize?_boundPage hn hpos
      size_open := fun hnone => pageSize?_boundPage_eq_none.1 hnone
      size_kept := hkept
      offset := offset?_boundPage _ _
      cursor := cursor_boundPage _ _
      policy_settled := settleCache_ne_standard _ _
      policy_kept := settleCache_of_ne _
      time := resolve_settleCache _ _ _
      entity := rfl
      predicate := rfl
      relations := rfl
      order := rfl
      selection := rfl
      loadRelationIds := rfl }

/-- A prepared query is not changed by preparing it again. -/
theorem prepare_of_prepare (h : r.prepare q = .ok p) : r.prepare p = .ok p := by
  obtain ⟨hentity, rfl⟩ := prepare_eq_ok.1 h
  refine prepare_eq_ok.2 ⟨hentity, ?_⟩
  rw [boundPage_boundPage, settleCache_of_ne _ (settleCache_ne_standard _ _)]

/-- Every query about the entity is prepared, whatever the configuration, and that once and for
all: its page and its caching are settled, and nothing else of it changes. -/
theorem exists_prepared (r : Repository σ P) (h : q.entity = r.shape.name) :
    ∃ p, r.prepare q = .ok p ∧ r.prepare p = .ok p ∧ Prepared r.config q p := by
  obtain ⟨p, hp⟩ : ∃ p, r.prepare q = .ok p := ⟨_, prepare_eq_ok.2 ⟨h, rfl⟩⟩
  exact ⟨p, hp, prepare_of_prepare hp, prepared_of_prepare hp⟩

/-- The configured size is past the largest that is served, and is cut down like any other. -/
theorem exists_prepared_articles :
    ∃ (r : Repository .articles Document.provider) (q p : QuerySpec),
      r.config = ⟨250, 5, 3⟩ ∧ q.entity = r.shape.name ∧ q.pagination = .none ∧
      r.prepare q = .ok p ∧ p.pagination.pageSize? = some 3 ∧ r.prepare p = .ok p ∧
      Prepared r.config q p := by
  obtain ⟨r, _, hentity⟩ := exists_ok_of_any
    (x := Repository.new .articles Document.provider "Article" Document.Store.empty)
    (p := fun r => r.shape.name = "Article") (by decide +kernel)
  let q : QuerySpec := { QuerySpec.all "Article" with cache := .standard }
  have hq : q.entity = r.shape.name := (of_decide_eq_true hentity).symm
  obtain ⟨p, hp, hagain, hprepared⟩ := exists_prepared (r.withConfig ⟨250, 5, 3⟩) (q := q) hq
  have hsize : p.pagination.pageSize? = some 3 := by
    obtain ⟨_, rfl⟩ := prepare_eq_ok.1 hp
    rfl
  exact ⟨r.withConfig ⟨250, 5, 3⟩, q, p, rfl, hq, rfl, hp, hsize, hagain, hprepared⟩

end Queries

end Repository

end RowQuery
