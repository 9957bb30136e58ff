import RowQuery.Proofs.Builder.Reachable
import RowQuery.Proofs.Page.Token
import RowQuery.Proofs.Repository.Prepare

/-!
# Paging through the rows of a query

A client takes the pages of a query one after another and hands the token of each to the request for
the next. A page that carries a token is filled, and the token points to the row after it
(`Cursor.rest_of_page`), whatever sizes were asked for, assumed or cut down. So a walk ends, and its
pages hold the rows of the query once each and in order (`exists_walk_iff_of_reachable`).
-/

namespace RowQuery

/-! ### Page sizes -/

namespace Pagination

variable {p : Pagination}

/-- Where a page size is given, the page has room for a row. -/
structure Sized (p : Pagination) : Prop where
  limit : p.limit ≠ some 0
  cursor : ∀ c, p.cursor = some c → c.limit ≠ 0

theorem Sized.pageSize? (h : p.Sized) : p.pageSize? ≠ some 0 := by
  obtain ⟨cursor, limit⟩ := p
  cases limit with
  | some n => exact h.limit
  | none =>
    cases cursor with
    | none => nofun
    | some c => exact fun hc => h.cursor c rfl (Option.some.inj hc)

theorem Sized.resumed (h : p.Sized) (token : String) : (p.resumed token).Sized := by
  unfold Pagination.resumed
  split
  · exact h
  · cases hc : Cursor.decode token with
    | error _ => exact h
    | ok cursor =>
      refine ⟨h.limit, fun c heq => ?_⟩
      cases heq
      exact Cursor.limit_ne_zero_of_decode hc

theorem Sized.limited (h : p.Sized) (n : UInt64) : (p.limited n).Sized := by
  unfold Pagination.limited
  split
  · exact h
  · exact ⟨fun heq => absurd (Option.some.inj heq) ‹_›, h.cursor⟩

end Pagination

theorem Shaping.sized_reshape {q : QuerySpec} (h : q.pagination.Sized) (step : Shaping) :
    (step.reshape q).pagination.Sized := by
  cases step with
  | next token => exact h.resumed token
  | limit n => exact h.limited n
  | _ => exact h

namespace Builder

variable {σ : Schema} {b : Builder σ}

/-- No call makes room for no row. -/
theorem Reachable.sized (hb : b.Reachable) : b.spec.pagination.Sized := by
  have hnone : Pagination.none.Sized := ⟨nofun, nofun⟩
  induction hb with
  | new h =>
    obtain ⟨s, _, _, rfl⟩ := new_eq_ok.1 h
    exact hnone
  | @filter _ _ path f _ h ih =>
    rw [(sameShaping_of_apply (d := .filter path f) rfl h).pagination]
    exact ih
  | @oneOf _ _ path vs _ h ih =>
    rw [(sameShaping_of_apply (d := .oneOf path vs) rfl h).pagination]
    exact ih
  | joinScope _ h _ =>
    obtain ⟨_, _, s, _, _, rfl⟩ := joinScope_eq_ok.1 h
    exact hnone
  | join _ _ h ih _ =>
    obtain ⟨_, _, _, _, _, ⟨_, rfl⟩ | ⟨_, _, _, rfl⟩⟩ := join_eq_ok.1 h
    · exact ih
    · exact ih
  | branchScope _ h _ =>
    obtain ⟨_, _, _, rfl⟩ := branchScope_eq_ok.1 h
    exact hnone
  | or _ _ h ih _ =>
    obtain ⟨_, _, _, rfl⟩ := or_eq_ok.1 h
    exact ih
  | @shaped _ _ step _ h ih =>
    obtain ⟨_, rfl⟩ := shaped_eq_ok.1 h
    exact step.sized_reshape ih

/-- The builder after a request for a page. -/
def request (b : Builder σ) (p : PageRequest) : Except QueryError (Builder σ) :=
  b.applyAll (p.shapings.map .shape)

/-- The token of a page is taken back, and no request changes more than the page. -/
theorem exists_request (hb : b.spec.pagination.cursor = none) {c : Option Cursor}
    (hc : ∀ x, c = some x → x.limit ≠ 0) (n : Option UInt64) :
    ∃ limit, b.request ⟨c.map Cursor.encode, n⟩ =
      .ok { b with spec := { b.spec with pagination := ⟨c, limit⟩ } } := by
  have hlimit (b : Builder σ) : ∃ limit,
      b.applyAll ((n.map Shaping.limit).toList.map .shape) =
        .ok { b with spec := { b.spec with pagination := ⟨b.spec.pagination.cursor, limit⟩ } } := by
    cases n with
    | none => exact ⟨b.spec.pagination.limit, rfl⟩
    | some n =>
      have hone : b.applyAll [.shape (.limit n)] = .ok (b.limit n) := rfl
      by_cases hn : n = 0
      · exact ⟨b.spec.pagination.limit, hone.trans (congrArg _ (if_pos hn))⟩
      · exact ⟨some n, hone.trans (congrArg _ (if_neg hn))⟩
  cases c with
  | none =>
    have hrun := hlimit b
    rw [hb] at hrun
    exact hrun
  | some c =>
    let b₁ := { b with spec := { b.spec with pagination := ⟨some c, b.spec.pagination.limit⟩ } }
    have hnext : b.next c.encode = .ok b₁ := by
      rw [next, if_neg c.trim_encode_ne_nil, Cursor.decode_encode (hc c rfl)]
      rfl
    obtain ⟨limit, hrun⟩ := hlimit b₁
    refine ⟨limit, ?_⟩
    calc b.request ⟨some c.encode, n⟩
      _ = b.next c.encode >>= (·.applyAll ((n.map Shaping.limit).toList.map .shape)) := rfl
      _ = b₁.applyAll ((n.map Shaping.limit).toList.map .shape) := by rw [hnext]; rfl
      _ = _ := hrun

end Builder

/-! ### One page -/

namespace Cursor

/-- The row that a page begins with. -/
def startOf (c : Option Cursor) : Nat := ((c.map offset).getD 0).toNat

variable {α : Type} {c : Cursor}

/-- A page that is not filled holds all rows that are left, and after one that is filled the rows go
on where the next cursor says. -/
theorem rest_of_page (hc : c.limit ≠ 0) {all rows : List α}
    (hall : all.length < 0x10000000000000000)
    (hrows : rows = (all.drop c.offset.toNat).take c.limit.toNat) :
    (c.following? rows.length = none ∧ rows = all.drop c.offset.toNat) ∨
      ∃ next, c.following? rows.length = some next ∧ next.limit ≠ 0 ∧
        all.length - next.offset.toNat < all.length - c.offset.toNat ∧
        rows ++ all.drop next.offset.toNat = all.drop c.offset.toNat := by
  have hpos : 0 < c.limit.toNat := by
    rw [Nat.pos_iff_ne_zero]
    exact fun h => hc (UInt64.toNat_inj.1 h)
  have hlength : rows.length = min c.limit.toNat (all.length - c.offset.toNat) := by
    rw [hrows, List.length_take, List.length_drop]
  by_cases hfull : rows.length < c.limit.toNat
  · refine .inl ⟨if_pos hfull, ?_⟩
    rw [hrows]
    exact List.take_of_length_le (by rw [List.length_drop]; omega)
  · have hfits : c.offset.toNat + c.limit.toNat ≤ all.length := by omega
    have hnext : (c.offset + c.limit).toNat = c.offset.toNat + c.limit.toNat := by
      rw [UInt64.toNat_add]
      exact Nat.mod_eq_of_lt (by omega)
    refine .inr ⟨{ c with offset := c.offset + c.limit }, ?_, hc, ?_, ?_⟩
    · rw [following?, if_neg hfull, if_pos (by omega)]
    · simp only [hnext]
      omega
    · rw [hrows, hnext, ← List.drop_drop, List.take_append_drop]

end Cursor

namespace Document

namespace Query

variable {σ : Schema} {q : QuerySpec} {query : Query}

/-- The query for all rows, without a window. -/
def unpaged (query : Query) : Query := { query with offset := none, limit := none }

/-- Whether a specification is accepted does not depend on its page. -/
theorem ofSpec_page (h : ofSpec σ q = .ok query) (p : Pagination) :
    ofSpec σ { q with pagination := p } =
      .ok { query with offset := p.offset?.filter (0 < ·), limit := p.pageSize? } := by
  obtain ⟨s, filter, hs, hfilter, hrelations, hids, horder, hselection, rfl⟩ := ofSpec_eq_ok.1 h
  exact ofSpec_eq_ok.2 ⟨s, filter, hs, hfilter, hrelations, hids, horder, hselection, rfl⟩

end Query

namespace Store

variable (s : Store) (query : Query)

theorem length_rows_unpaged_le :
    (s.rows query.unpaged).length ≤ (s.documents query.collection).length := by
  have hmatching : s.rows query.unpaged =
      (query.matching (s.documents query.collection)).map (project query.select) := rfl
  rw [hmatching, List.length_map, Query.matching, List.length_mergeSort]
  exact List.length_filter_le _ _

/-- A page is a window of the rows of the query. -/
theorem rows_page (offset limit : Option UInt64) :
    s.rows { query with offset := offset.filter (0 < ·), limit := limit } =
      match limit with
      | none => (s.rows query.unpaged).drop (offset.getD 0).toNat
      | some n => ((s.rows query.unpaged).drop (offset.getD 0).toNat).take n.toNat := by
  have hmatching : s.rows query.unpaged =
      (query.matching (s.documents query.collection)).map (project query.select) := rfl
  have hoffset : (offset.filter (0 < ·)).getD 0 = offset.getD 0 := by
    cases offset with
    | none => rfl
    | some n =>
      by_cases hn : 0 < n
      · rw [Option.filter_some_pos (by simpa using hn)]
      · have hzero : n = 0 := UInt64.le_zero_iff.1 (UInt64.not_lt.1 hn)
        rw [Option.filter_some_neg (by simpa using hn), hzero]
        rfl
  have hrows : s.rows { query with offset := offset.filter (0 < ·), limit := limit } =
      (Query.window { query with offset := offset.filter (0 < ·), limit := limit }
        (query.matching (s.documents query.collection))).map (project query.select) := rfl
  rw [hrows, hmatching, Query.window, hoffset]
  cases limit with
  | none => simp
  | some n => simp

end Store

end Document

namespace Repository

/-! ### Requests -/

theorem sized_boundPage (c : Config) {p : Pagination} (h : p.Sized) : (boundPage c p).Sized := by
  have hlimit (n : UInt64) (hn : 0 < n) : ({ p with limit := some n } : Pagination).Sized :=
    ⟨fun heq => UInt64.lt_irrefl _ ((Option.some.inj heq) ▸ hn), h.cursor⟩
  simp only [boundPage]
  split
  · split
    · exact hlimit _ (And.left ‹_›)
    · exact hlimit _ (And.right ‹_›)
  · split
    · exact hlimit _ (And.left ‹_›)
    · exact h

section Requests

variable {σ : Schema} {Native Source : Type} {P : Provider Native Source}

/-- The page that a query asks for with a token and a page size. -/
def ask (r : Repository σ P) (b : Builder σ) (now : Nat) (request : PageRequest) :
    Except QueryError Page × Repository σ P :=
  match b.request request with
  | .error e => (.error e, r)
  | .ok b => r.findPage now b.spec

/-- The pages that a client gets from a request on, if it goes on for as long as a page carries a
token. Request number `i` is made at the moment `now i` and chooses the page size `choose i`. -/
inductive Walk (b : Builder σ) (choose : Nat → Option UInt64) (now : Nat → Nat) :
    Repository σ P → Nat → Option String → List Page → Prop
  | last {r r' : Repository σ P} {i : Nat} {token : Option String} {page : Page}
    (h : r.ask b (now i) ⟨token, choose i⟩ = (.ok page, r')) (hlast : page.next = none) :
    Walk b choose now r i token [page]
  | more {r r' : Repository σ P} {i : Nat} {token : Option String} {page : Page} {next : String}
    {pages : List Page} (h : r.ask b (now i) ⟨token, choose i⟩ = (.ok page, r'))
    (hmore : page.next = some next) (rest : Walk b choose now r' (i + 1) (some next) pages) :
    Walk b choose now r i token (page :: pages)

/-- A walk is determined by where it starts. -/
theorem Walk.unique {b : Builder σ} {choose : Nat → Option UInt64} {now : Nat → Nat}
    {r : Repository σ P} {i : Nat} {token : Option String} {pages others : List Page}
    (h : Walk b choose now r i token pages) (h' : Walk b choose now r i token others) :
    others = pages := by
  induction h generalizing others with
  | last h hlast =>
    cases h' with
    | last h' _ =>
      cases h.symm.trans h'
      rfl
    | more h' hmore _ =>
      cases h.symm.trans h'
      cases hlast.symm.trans hmore
  | more h hmore _ ih =>
    cases h' with
    | last h' hlast =>
      cases h.symm.trans h'
      cases hmore.symm.trans hlast
    | more h' hmore' rest' =>
      cases h.symm.trans h'
      cases hmore.symm.trans hmore'
      rw [ih rest']

end Requests

section Documents

open Document

variable {σ : Schema} {r : Repository σ provider} {b : Builder σ} {query : Document.Query}

/-- Without caching, a page is read off the source. -/
theorem findPage_of_ofSpec {q : QuerySpec} (hentity : q.entity = r.shape.name)
    (hcache : q.cache = .disabled) (hquery : Query.ofSpec σ q = .ok query) (now : Nat)
    {p : Pagination} (hp : boundPage r.config q.pagination = p) {rows : List Json}
    (hrows : r.source.rows
      { query with offset := p.offset?.filter (0 < ·), limit := p.pageSize? } = rows) :
    r.findPage now q =
      (.ok ⟨rows, ((cursorOf p).bind (·.following? rows.length)).map Cursor.encode⟩,
        { r with executions := r.executions + 1 }) := by
  have hsettled : settleCache r.config q.cache = q.cache := by
    rw [hcache]
    rfl
  have hprepare : r.prepare q = .ok { q with pagination := p } :=
    prepare_eq_ok.2 ⟨hentity, by rw [hp, hsettled]⟩
  have hrun : r.run now { q with pagination := p } =
      (.ok rows, { r with executions := r.executions + 1 }) := by
    have hcompile : provider.compile σ { q with pagination := p } = _ := Query.ofSpec_page hquery p
    have hexecute : provider.execute r.source
        { query with offset := p.offset?.filter (0 < ·), limit := p.pageSize? } = .ok rows :=
      congrArg Except.ok hrows
    rw [run_of_resolve_eq_none hcompile (by rw [hcache]; rfl), execute, hexecute]
  rw [findPage, hprepare]
  simp only [hrun]

section Walks

variable (hb : b.Reachable) (hcursor : b.spec.pagination.cursor = none)
  (hcache : b.spec.cache = .disabled) (hentity : b.spec.entity = r.shape.name)
  (hquery : Query.ofSpec σ b.spec = .ok query)
  (hcount : (r.source.documents query.collection).length < 0x10000000000000000)

include hb hcursor hcache hentity hquery hcount

/-- Every request is answered, by the last rows that are left or by a page and the token of what
follows it. -/
theorem ask_eq {c : Option Cursor} (hc : ∀ x, c = some x → x.limit ≠ 0) (now : Nat)
    (n : Option UInt64) {all : List Json} (hall : r.source.rows query.unpaged = all) :
    ∃ page, r.ask b now ⟨c.map Cursor.encode, n⟩ =
        (.ok page, { r with executions := r.executions + 1 }) ∧
      ((page.next = none ∧ page.rows = all.drop (Cursor.startOf c)) ∨
        ∃ next : Cursor, page.next = some next.encode ∧ next.limit ≠ 0 ∧
          all.length - next.offset.toNat < all.length - Cursor.startOf c ∧
          page.rows ++ all.drop next.offset.toNat = all.drop (Cursor.startOf c)) := by
  obtain ⟨limit, hrequest⟩ := Builder.exists_request hcursor hc n
  have hsized : Pagination.Sized ⟨c, limit⟩ := (hb.applyAll hrequest).sized
  obtain ⟨p, hp⟩ : ∃ p, boundPage r.config ⟨c, limit⟩ = p := ⟨_, rfl⟩
  have hoffset : p.offset? = c.map Cursor.offset := by
    rw [← hp, Pagination.offset?, cursor_boundPage]
  have hbounded : p.Sized := hp ▸ sized_boundPage r.config hsized
  have hpage := findPage_of_ofSpec (r := r)
    (q := { b.spec with pagination := ⟨c, limit⟩ }) hentity hcache (Query.ofSpec_page hquery _) now
    hp rfl
  have hrows := r.source.rows_page query p.offset? p.pageSize?
  have hlength : all.length < 0x10000000000000000 :=
    hall ▸ Nat.lt_of_le_of_lt (r.source.length_rows_unpaged_le query) hcount
  rw [hoffset] at hrows hpage
  rw [hall] at hrows
  refine ⟨_, by rw [ask, hrequest]; exact hpage, ?_⟩
  cases hsize : p.pageSize? with
  | none =>
    rw [hsize] at hrows
    exact .inl ⟨by simp [cursorOf, hsize], hrows⟩
  | some size =>
    rw [hsize] at hrows
    have hpos : size ≠ 0 := fun h => hbounded.pageSize? (h ▸ hsize)
    have hserved : cursorOf p = some ⟨(c.map Cursor.offset).getD 0, size⟩ := by
      simp [cursorOf, hsize, hoffset]
    rcases Cursor.rest_of_page (c := ⟨(c.map Cursor.offset).getD 0, size⟩) hpos hlength hrows with
      ⟨hlast, hrest⟩ | ⟨next, hmore, hnext, hless, hrest⟩
    · exact .inl ⟨by simp [hserved, hlast], hrest⟩
    · exact .inr ⟨next, by simp [hserved, hmore], hnext, hless, hrest⟩

/-- From every request on there is a walk through the rows that are left. -/
theorem exists_walk_of_request (choose : Nat → Option UInt64) (now : Nat → Nat) (i executions : Nat)
    {c : Option Cursor} (hc : ∀ x, c = some x → x.limit ≠ 0) {all : List Json}
    (hall : r.source.rows query.unpaged = all) :
    ∃ pages, Walk (P := provider) b choose now { r with executions := executions } i
        (c.map Cursor.encode) pages ∧
      pages.flatMap Page.rows = all.drop (Cursor.startOf c) := by
  -- every page with a token leaves fewer rows to the requests after it
  obtain ⟨left, hleft⟩ : ∃ left, all.length - Cursor.startOf c = left := ⟨_, rfl⟩
  induction left using Nat.strongRecOn generalizing i executions c with
  | ind left ih =>
    obtain ⟨page, hask, ⟨hlast, hrows⟩ | ⟨next, hmore, hpos, hless, hrows⟩⟩ :=
      ask_eq (r := { r with executions := executions }) hb hcursor hcache hentity hquery hcount hc
        (now i) (choose i) hall
    · refine ⟨[page], .last hask hlast, ?_⟩
      rw [List.flatMap_singleton, hrows]
    · have hnext : ∀ x, some next = some x → x.limit ≠ 0 := by
        rintro _ ⟨⟩
        exact hpos
      obtain ⟨pages, hwalk, hpages⟩ :=
        ih _ (by rw [← hleft]; exact hless) (i + 1) (executions + 1) hnext rfl
      refine ⟨page :: pages, .more hask hmore hwalk, ?_⟩
      rw [List.flatMap_cons, hpages, ← hrows]
      rfl

end Walks

/-- A walk that starts without a token ends, with every token taken back, and its pages hold the
rows of the query once each and in order, whatever page sizes are chosen. -/
theorem exists_walk_iff_of_reachable (hb : b.Reachable) (hcursor : b.spec.pagination.cursor = none)
    (hcache : b.spec.cache = .disabled) (hentity : b.spec.entity = r.shape.name)
    (hquery : Query.ofSpec σ b.spec = .ok query)
    (hcount : (r.source.documents query.collection).length < 0x10000000000000000)
    (choose : Nat → Option UInt64) (now : Nat → Nat) :
    ∃ pages, (∀ others, Walk b choose now r 0 none others ↔ others = pages) ∧
      pages.flatMap Page.rows = r.source.rows query.unpaged := by
  obtain ⟨pages, hwalk, hpages⟩ :=
    exists_walk_of_request hb hcursor hcache hentity hquery hcount choose now 0 r.executions
      (c := none) nofun rfl
  refine ⟨pages, fun others => ⟨fun h => hwalk.unique h, ?_⟩, hpages⟩
  rintro rfl
  exact hwalk

/-- Five articles in pages of two; the second request asks for more than is served at once. -/
theorem exists_walk_articles :
    ∃ (r : Repository .articles provider) (b : Builder .articles) (query : Document.Query)
      (pages : List Page),
      r.config = ⟨1000, 2, 3⟩ ∧ Query.ofSpec .articles b.spec = .ok query ∧
      query.order = [⟨"title", .desc⟩] ∧ (r.source.documents query.collection).length = 5 ∧
      Walk b (fun i => if i = 1 then some 7 else none) id r 0 none pages ∧
      pages.flatMap Page.rows = r.source.rows query.unpaged := by
  let docs : List Json :=
    ["b", "d", "a", "c", "b"].map fun title => .mkObj [("title", .str title)]
  let config : Config := ⟨1000, 2, 3⟩
  have hrun : (do
      let r ← Repository.new .articles provider "Article" (Store.empty.insertMany "articles" docs)
      let b ← Builder.new .articles "Article" >>= (·.applyAll [.shape (.sort .desc "title")])
      return (r.withConfig config, b, ← Query.ofSpec .articles b.spec) :
      Except QueryError (Repository .articles provider × Builder .articles × Document.Query)
      ).toOption.any (fun x => x.2.1.spec.pagination.cursor = none ∧
        x.2.1.spec.cache = .disabled ∧ x.2.1.spec.entity = x.1.shape.name ∧
        x.2.2.order = [⟨"title", .desc⟩] ∧
        (x.1.source.documents x.2.2.collection).length = 5) = true := by
    decide +kernel
  obtain ⟨⟨r, b, query⟩, h, hx⟩ := exists_ok_of_any hrun
  obtain ⟨hcursor, hcache, hentity, horder, hlength⟩ := of_decide_eq_true hx
  obtain ⟨r₀, _, h⟩ := bind_eq_ok.1 h
  obtain ⟨b₁, hb, h⟩ := bind_eq_ok.1 h
  obtain ⟨b₀, h₀, hb⟩ := bind_eq_ok.1 hb
  obtain ⟨_, hquery, h⟩ := bind_eq_ok.1 h
  cases h
  have hcount : (r₀.source.documents query.collection).length < 0x10000000000000000 := by
    have hfive : (r₀.source.documents query.collection).length = 5 := hlength
    omega
  obtain ⟨pages, hwalk, hpages⟩ :=
    exists_walk_iff_of_reachable ((Builder.Reachable.new h₀).applyAll hb) hcursor hcache hentity
      hquery hcount (fun i => if i = 1 then some 7 else none) id
  exact ⟨_, _, _, pages, rfl, hquery, horder, hlength, (hwalk pages).2 rfl, hpages⟩

end Documents

end Repository

end RowQuery
