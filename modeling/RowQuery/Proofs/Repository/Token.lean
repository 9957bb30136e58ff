import RowQuery.Proofs.Document.Serialized
import RowQuery.Proofs.Page.Token
import RowQuery.Proofs.Repository.Prepare

/-!
# The tokens that pages carry

A page carries a token if it is filled, and then the token leads on by as many rows as the page has
(`decode_token_of_findPage`). Rows may come out of the cache, where no query ever has more of them
than its limit (`Reachable.bounded`), so a page is never more than filled.

A page size of zero is the exception: such a page is filled by no rows at all, and its token is
refused (`decode_token_of_size_zero`). Builders never ask for one, but a specification may.
-/

namespace RowQuery

open Document

theorem Cursor.following?_eq_some {c next : Cursor} {fetched : Nat} :
    c.following? fetched = some next ↔
      c.limit.toNat ≤ fetched ∧ c.offset.toNat + c.limit.toNat < 0x10000000000000000 ∧
        next = { c with offset := c.offset + c.limit } := by
  unfold following?
  by_cases hshort : fetched < c.limit.toNat
  · rw [if_pos hshort]
    exact ⟨nofun, fun h => absurd hshort (Nat.not_lt.2 h.1)⟩
  · rw [if_neg hshort]
    by_cases hfits : c.offset.toNat + c.limit.toNat < 0x10000000000000000
    · rw [if_pos hfits, Option.some.injEq]
      exact ⟨fun h => ⟨Nat.not_lt.1 hshort, hfits, h.symm⟩, fun h => h.2.2.symm⟩
    · rw [if_neg hfits]
      exact ⟨nofun, fun h => absurd h.2.1 hfits⟩

/-! ### Rows and limits -/

theorem Document.Store.length_rows (s : Store) {query : Query} {n : UInt64}
    (h : query.limit = some n) :
    (s.rows query).length = min n.toNat
      (((s.documents query.collection).filter query.isMet).length -
        (query.offset.getD 0).toNat) := by
  simp [rows, Query.answer, Query.window, Query.matching, h]

theorem Document.Store.length_rows_le (s : Store) {query : Query} {n : UInt64}
    (h : query.limit = some n) : (s.rows query).length ≤ n.toNat := by
  rw [s.length_rows h]
  exact Nat.min_le_left _ _

/-- No query has more rows in the cache than its limit. -/
def RowCache.Bounded (cache : RowCache) : Prop :=
  ∀ e ∈ cache, ∀ query : Document.Query, provider.key query = e.key →
    ∀ n, query.limit = some n → e.rows.length ≤ n.toNat

namespace RowCache.Bounded

variable {cache : RowCache} {now : Nat} {rows : List Json}

theorem nil : Bounded [] := by
  intro e he
  cases he

theorem length_le (h : cache.Bounded) {query : Document.Query}
    (hfind : cache.find? now (provider.key query) = some rows) {n : UInt64}
    (hn : query.limit = some n) : rows.length ≤ n.toNat := by
  obtain ⟨e, he, rfl⟩ := Option.map_eq_some_iff.1 hfind
  have hkey : e.key = provider.key query := by
    have hfound := List.find?_some he
    simp only [Bool.and_eq_true, beq_iff_eq] at hfound
    exact hfound.1
  exact h e (List.mem_of_find?_eq_some he) query hkey.symm n hn

/-- Queries of one text are one query, so rows within the limit of one are within that of all. -/
theorem remember (h : cache.Bounded) {query : Document.Query} (time : Duration)
    (hrows : ∀ n, query.limit = some n → rows.length ≤ n.toNat) :
    Bounded (cache.remember now (provider.key query) time rows) := by
  intro e he other hkey n hn
  rcases List.mem_cons.1 he with rfl | he
  · rw [Query.compact_eq_iff.1 hkey] at hn
    exact hrows n hn
  · exact h e (List.mem_of_mem_filter he) other hkey n hn

end RowCache.Bounded

/-! ### Repositories -/

namespace Repository

variable {σ : Schema} {r : Repository σ provider} {now : Nat} {q : QuerySpec}

/-- The repository comes out of a new one: it may have been set up anew, its store changed and
queries asked. -/
inductive Reachable : Repository σ provider → Prop
  | new {entity : String} {s : Store} {r : Repository σ provider}
    (h : new σ provider entity s = .ok r) : Reachable r
  | withConfig {r : Repository σ provider} (hr : Reachable r) (config : Config) :
    Reachable (r.withConfig config)
  | store {r : Repository σ provider} (hr : Reachable r) (s : Store) :
    Reachable { r with source := s }
  | find {r : Repository σ provider} (hr : Reachable r) (now : Nat) (q : QuerySpec) :
    Reachable (r.find now q).2
  | findPage {r : Repository σ provider} (hr : Reachable r) (now : Nat) (q : QuerySpec) :
    Reachable (r.findPage now q).2

/-- What is found is within the limit of the query, and so is what is kept of it. -/
theorem bounded_find (h : r.cache.Bounded) (now : Nat) (q : QuerySpec) :
    (r.find now q).2.cache.Bounded ∧
      ∀ rows query n, (r.find now q).1 = .ok rows → r.compile q = .ok query →
        query.limit = some n → rows.length ≤ n.toNat := by
  rcases r.find_cases now q with ⟨e, hcompile, hfind⟩ |
    ⟨native, hcompile, ⟨kept, hkept, hfind⟩ | ⟨cache, hfind, hcache⟩⟩
  · rw [hfind]
    refine ⟨h, ?_⟩
    intro rows query n hrows
    cases hrows
  · rw [hfind]
    refine ⟨h, ?_⟩
    intro rows query n hrows hquery hn
    cases hrows
    cases hcompile.symm.trans hquery
    exact h.length_le hkept hn
  · rw [hfind]
    constructor
    · obtain rfl | ⟨time, rows, hrows, rfl⟩ := hcache
      · exact h
      · cases hrows
        exact h.remember time fun n hn => r.source.length_rows_le hn
    · intro rows query n hrows hquery hn
      cases hrows
      cases hcompile.symm.trans hquery
      exact r.source.length_rows_le hn

theorem Reachable.bounded (hr : r.Reachable) : r.cache.Bounded := by
  induction hr with
  | new h =>
    rw [cache_of_new h]
    exact .nil
  | withConfig _ _ ih => exact ih
  | store _ _ ih => exact ih
  | find _ now q ih => exact (bounded_find ih now q).1
  | @findPage r _ now q ih =>
    rw [(r.findPage_eq_find now q).2]
    exact (bounded_find ih now q).1

/-! ### Pages -/

/-- A page has the rows that are found, and the token of the cursor that follows on them. -/
theorem findPage_eq_ok {page : Page} (h : (r.findPage now q).1 = .ok page) :
    ∃ p query, r.prepare q = .ok p ∧ r.compile q = .ok query ∧
      query.limit = p.pagination.pageSize? ∧ (r.find now q).1 = .ok page.rows ∧
      page.next =
        ((cursorOf p.pagination).bind (·.following? page.rows.length)).map Cursor.encode := by
  have hfind : (r.find now q).1 = .ok page.rows := by
    rw [← (r.findPage_eq_find now q).1, h]
    rfl
  cases hprepare : r.prepare q with
  | error e =>
    simp only [findPage, hprepare] at h
    cases h
  | ok p =>
    obtain ⟨query, hquery⟩ : ∃ query, r.compile q = .ok query := by
      rcases r.find_cases now q with ⟨e, _, herror⟩ | ⟨query, hquery, _⟩
      · rw [herror] at hfind
        cases hfind
      · exact ⟨query, hquery⟩
    refine ⟨p, query, rfl, hquery, ?_, hfind, ?_⟩
    · obtain ⟨_, hp, hcompile⟩ := compile_eq_ok.1 hquery
      cases hprepare.symm.trans hp
      obtain ⟨_, _, _, _, _, _, _, _, rfl⟩ := Query.ofSpec_eq_ok.1 hcompile
      rfl
    · simp only [findPage, hprepare] at h
      split at h
      · cases h
      · cases h
        rfl

section Tokens

variable (hr : r.Reachable) {page : Page} (hpage : (r.findPage now q).1 = .ok page)

include hr hpage

/-- Where a page has a size, it has no more rows than that. -/
theorem exists_token_of_findPage {token : String} (htoken : page.next = some token) :
    ∃ size next : UInt64, (boundPage r.config q.pagination).pageSize? = some size ∧
      token = Cursor.encode ⟨next, size⟩ ∧ page.rows.length = size.toNat ∧
      next.toNat = (q.pagination.offset?.getD 0).toNat + size.toNat := by
  obtain ⟨p, query, hprepare, hquery, hlimit, hfind, hnext⟩ := findPage_eq_ok hpage
  obtain ⟨_, rfl⟩ := prepare_eq_ok.1 hprepare
  rw [htoken] at hnext
  obtain ⟨c, hc, rfl⟩ := Option.map_eq_some_iff.1 hnext.symm
  obtain ⟨d, hd, hfollowing⟩ := Option.bind_eq_some_iff.1 hc
  obtain ⟨size, hsize, rfl⟩ := Option.map_eq_some_iff.1 hd
  obtain ⟨hfilled, hfits, rfl⟩ := Cursor.following?_eq_some.1 hfollowing
  have hwithin : page.rows.length ≤ size.toNat :=
    (bounded_find hr.bounded now q).2 _ _ _ hfind hquery (hlimit.trans hsize)
  refine ⟨size, _, hsize, rfl, Nat.le_antisymm hwithin hfilled, ?_⟩
  simp only [offset?_boundPage] at hfits ⊢
  rw [UInt64.toNat_add]
  exact Nat.mod_eq_of_lt hfits

/-- The token of a page is read as a cursor that lies as many rows behind the request as the page
has, and that is at least one. -/
theorem decode_token_of_findPage (hsize : q.pagination.pageSize? ≠ some 0) {token : String}
    (htoken : page.next = some token) :
    ∃ c, Cursor.decode token = .ok c ∧ q.pagination.offset?.getD 0 < c.offset ∧
      c.offset.toNat - (q.pagination.offset?.getD 0).toNat = page.rows.length := by
  obtain ⟨size, next, hbound, rfl, hrows, hnext⟩ := exists_token_of_findPage hr hpage htoken
  have hroom : size ≠ 0 := by
    rintro rfl
    exact pageSize?_boundPage_ne_zero hsize hbound
  have hpos : 0 < size.toNat := by
    rw [Nat.pos_iff_ne_zero]
    exact fun h => hroom (UInt64.toNat_inj.1 h)
  refine ⟨⟨next, size⟩, Cursor.decode_encode hroom, ?_, ?_⟩
  · show _ < next
    rw [UInt64.lt_iff_toNat_lt]
    omega
  · show next.toNat - _ = _
    omega

/-- A page without room is filled by no rows, and carries a token that is refused. -/
theorem decode_token_of_size_zero (hsize : q.pagination.pageSize? = some 0) :
    page.rows = [] ∧ ∃ token, page.next = some token ∧
      Cursor.decode token = .error .invalidToken := by
  obtain ⟨p, query, hprepare, hquery, hlimit, hfind, hnext⟩ := findPage_eq_ok hpage
  obtain ⟨_, rfl⟩ := prepare_eq_ok.1 hprepare
  have hzero : (boundPage r.config q.pagination).pageSize? = some 0 := by
    rw [pageSize?_boundPage, hsize]
    exact congrArg some (Config.cutSize_of_le fun _ => UInt64.zero_le)
  have hrows : page.rows.length ≤ (0 : UInt64).toNat :=
    (bounded_find hr.bounded now q).2 _ _ _ hfind hquery (hlimit.trans hzero)
  obtain ⟨next, hfollowing⟩ :
      ∃ next, (⟨q.pagination.offset?.getD 0, 0⟩ : Cursor).following? page.rows.length =
        some ⟨next, 0⟩ := by
    refine ⟨_, Cursor.following?_eq_some.2 ⟨Nat.zero_le _, ?_, rfl⟩⟩
    exact UInt64.toNat_lt _
  refine ⟨List.eq_nil_of_length_eq_zero (Nat.le_zero.1 hrows), Cursor.encode ⟨next, 0⟩, ?_,
    Cursor.decode_encode_of_limit_eq_zero rfl⟩
  rw [hnext, cursorOf, hzero, offset?_boundPage, Option.map_some, Option.bind_some, hfollowing,
    Option.map_some]

end Tokens

/-- Five articles, of which a request with a cursor gets three from the second on. -/
theorem decode_token_articles :
    ∃ (r : Repository .articles provider) (q : QuerySpec) (page : Page) (token : String),
      r.Reachable ∧ r.config = ⟨1000, 2, 3⟩ ∧ q.pagination = ⟨some ⟨1, 9⟩, none⟩ ∧
      (r.findPage 0 q).1 = .ok page ∧ page.rows.length = 3 ∧ page.next = some token ∧
      ∃ c, Cursor.decode token = .ok c ∧ q.pagination.offset?.getD 0 < c.offset ∧
        c.offset.toNat - (q.pagination.offset?.getD 0).toNat = page.rows.length := by
  let docs : List Json :=
    ["b", "d", "a", "c", "b"].map fun title => .mkObj [("title", .str title)]
  let q : QuerySpec := { QuerySpec.all "Article" with pagination := ⟨some ⟨1, 9⟩, none⟩ }
  obtain ⟨r₀, hnew, hr⟩ := exists_ok_of_any
    (x := new .articles provider "Article" (Store.empty.insertMany "articles" docs))
    (p := fun r =>
      ((r.withConfig ⟨1000, 2, 3⟩).findPage 0 q).1.toOption.isSome ∧
      ((r.withConfig ⟨1000, 2, 3⟩).compile q).toOption.any fun query =>
        query.limit = some 3 ∧ query.offset = some 1 ∧
          ((r.source.documents query.collection).filter query.isMet).length = 5)
    (by decide +kernel)
  obtain ⟨hpage, hquery⟩ := of_decide_eq_true hr
  obtain ⟨page, hpage⟩ := exists_ok_of_isSome hpage
  obtain ⟨query, hquery, hx⟩ := exists_ok_of_any hquery
  obtain ⟨hlimit, hoffset, hcount⟩ := of_decide_eq_true hx
  have hreachable := (Reachable.new hnew).withConfig ⟨1000, 2, 3⟩
  obtain ⟨p, _, hp, _, _, hfind, hnext⟩ := findPage_eq_ok hpage
  rw [find_uncached hquery rfl] at hfind
  have hrows : page.rows.length = 3 := by
    have hall := r₀.source.length_rows hlimit
    rw [hoffset, hcount] at hall
    rw [← Except.ok.inj hfind]
    exact hall
  obtain ⟨_, rfl⟩ := prepare_eq_ok.1 hp
  rw [hrows] at hnext
  exact ⟨_, q, page, _, hreachable, rfl, rfl, hpage, hrows, hnext,
    decode_token_of_findPage hreachable hpage (by decide) hnext⟩

/-- A specification that asks for a page without room gets a token that no request can use. -/
theorem exists_token_not_decoded :
    ∃ (r : Repository .articles provider) (q : QuerySpec) (page : Page) (token : String),
      r.Reachable ∧ q = { QuerySpec.all "Article" with pagination := ⟨none, some 0⟩ } ∧
      (r.findPage 0 q).1 = .ok page ∧ page.next = some token ∧
      ¬∃ c, Cursor.decode token = .ok c := by
  let q : QuerySpec := { QuerySpec.all "Article" with pagination := ⟨none, some 0⟩ }
  obtain ⟨r, hnew, hr⟩ := exists_ok_of_any
    (x := new .articles provider "Article" Store.empty)
    (p := fun r => (r.findPage 0 q).1.toOption.isSome) (by decide +kernel)
  obtain ⟨page, hpage⟩ := exists_ok_of_isSome hr
  obtain ⟨_, token, htoken, hdecode⟩ :=
    decode_token_of_size_zero (.new hnew) hpage (q := q) rfl
  refine ⟨r, q, page, token, .new hnew, rfl, hpage, htoken, ?_⟩
  rintro ⟨c, hc⟩
  cases hdecode.symm.trans hc

end Repository

end RowQuery
