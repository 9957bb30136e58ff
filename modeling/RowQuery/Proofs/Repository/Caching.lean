import Mathlib.Data.List.Induction
import RowQuery.Proofs.Document.Serialized
import RowQuery.Proofs.Path
import RowQuery.Proofs.Repository.Answer

/-!
# Rows that are served again

Documents come in while queries are answered. As long as nothing that is kept expires, a query that
may be served again is answered with the rows of the first time that it was asked, and no other
query's (`answered_perform`). That no two queries share their rows rests on
`Query.compact_eq_iff`.
-/

namespace RowQuery

open Document

/-- What can be done with a repository of documents. -/
inductive Operation where
  | insert (collection : String) (doc : Json)
  | find (q : QuerySpec)
  | findPage (q : QuerySpec)

/-- What an operation gives back. -/
inductive Reply where
  | done
  | rows (answer : Except QueryError (List Json))
  | page (answer : Except QueryError Page)

/-- The rows that an operation gives back. -/
def Reply.answer? : Reply → Option (Except QueryError (List Json))
  | done => none
  | rows answer => some answer
  | page answer => some (answer.map Page.rows)

namespace Operation

def spec? : Operation → Option QuerySpec
  | insert _ _ => none
  | find q => some q
  | findPage q => some q

/-- The store after the operation. -/
def store (s : Store) : Operation → Store
  | insert collection doc => s.insert collection doc
  | find _ => s
  | findPage _ => s

theorem store_of_spec? {op : Operation} {q : QuerySpec} (h : op.spec? = some q) (s : Store) :
    op.store s = s := by
  cases op with
  | insert collection doc => cases h
  | find q => rfl
  | findPage q => rfl

theorem eq_insert_of_spec? {op : Operation} (h : op.spec? = none) :
    ∃ collection doc, op = insert collection doc := by
  cases op with
  | insert collection doc => exact ⟨collection, doc, rfl⟩
  | find q => cases h
  | findPage q => cases h

end Operation

/-- The store after operations, each with the moment that it happens at. -/
def Document.Store.after (s : Store) (run : List (Nat × Operation)) : Store :=
  run.foldl (fun s e => e.2.store s) s

theorem Document.Store.after_concat (s : Store) (run : List (Nat × Operation))
    (e : Nat × Operation) : s.after (run ++ [e]) = e.2.store (s.after run) := by
  simp [after, List.foldl_append]

namespace Repository

variable {σ : Schema}

/-! ### Runs -/

section Runs

variable (r : Repository σ provider)

def perform (now : Nat) : Operation → Reply × Repository σ provider
  | .insert collection doc => (.done, { r with source := r.source.insert collection doc })
  | .find q => (.rows (r.find now q).1, (r.find now q).2)
  | .findPage q => (.page (r.findPage now q).1, (r.findPage now q).2)

/-- The repository after operations, each with the moment that it happens at. -/
def performAll (run : List (Nat × Operation)) : Repository σ provider :=
  run.foldl (fun r e => (r.perform e.1 e.2).2) r

/-- The repository after operations that leave the cache like this. -/
def reached (run : List (Nat × Operation)) (cache : RowCache) (executions : Nat) :
    Repository σ provider :=
  { r with source := r.source.after run, cache := cache, executions := executions }

/-- The translated query that an operation asks. -/
def asked? (op : Operation) : Option Document.Query := op.spec?.bind fun q => (r.compile q).toOption

/-- The rows of the first time in a run that a translated query is asked. -/
def firstRows (query : Document.Query) : Store → List (Nat × Operation) → Option (List Json)
  | _, [] => none
  | s, e :: run =>
    if r.asked? e.2 = some query then some (s.rows query)
    else firstRows query (e.2.store s) run

variable {r}

theorem performAll_concat (run : List (Nat × Operation)) (e : Nat × Operation) :
    r.performAll (run ++ [e]) = ((r.performAll run).perform e.1 e.2).2 := by
  simp [performAll, List.foldl_append]

theorem firstRows_concat {query : Document.Query} (s : Store) (run : List (Nat × Operation))
    (e : Nat × Operation) :
    r.firstRows query s (run ++ [e]) = (r.firstRows query s run).or
      (if r.asked? e.2 = some query then some ((s.after run).rows query) else none) := by
  induction run generalizing s with
  | nil =>
    rw [List.nil_append, firstRows]
    rfl
  | cons e' run ih =>
    rw [List.cons_append, firstRows, firstRows]
    split
    · rfl
    · exact ih _

/-- Rows are those of the store before an operation that asks the query, the first that does. -/
theorem firstRows_eq_some {query : Document.Query} {s : Store} {run : List (Nat × Operation)}
    {rows : List Json} :
    r.firstRows query s run = some rows ↔
      ∃ before e after, run = before ++ e :: after ∧ (∀ e' ∈ before, r.asked? e'.2 ≠ some query) ∧
        r.asked? e.2 = some query ∧ rows = (s.after before).rows query := by
  induction run generalizing s with
  | nil =>
    constructor
    · nofun
    · rintro ⟨before, e, after, h, _⟩
      cases before <;> cases h
  | cons e' run ih =>
    rw [firstRows]
    by_cases hasked : r.asked? e'.2 = some query
    · rw [if_pos hasked]
      constructor
      · rintro ⟨⟩
        exact ⟨[], e', run, rfl, List.forall_mem_nil _, hasked, rfl⟩
      · rintro ⟨before, e, after, h, hbefore, _, rfl⟩
        cases before with
        | nil => rfl
        | cons e'' before =>
          cases h
          exact absurd hasked (hbefore _ (.head _))
    · rw [if_neg hasked, ih]
      constructor
      · rintro ⟨before, e, after, rfl, hbefore, he, hrows⟩
        exact ⟨e' :: before, e, after, rfl, List.forall_mem_cons.2 ⟨hasked, hbefore⟩, he, hrows⟩
      · rintro ⟨before, e, after, h, hbefore, he, hrows⟩
        cases before with
        | nil =>
          cases h
          exact absurd he hasked
        | cons e'' before =>
          cases h
          exact ⟨before, e, after, rfl, (List.forall_mem_cons.1 hbefore).2, he, hrows⟩

/-- The rows of a query do not depend on whether it asks for a page. -/
theorem perform_of_spec? {op : Operation} {q : QuerySpec} (h : op.spec? = some q) (now : Nat) :
    (r.perform now op).1.answer? = some (r.find now q).1 ∧
      (r.perform now op).2 = (r.find now q).2 := by
  cases op with
  | insert collection doc => cases h
  | find q =>
    cases h
    exact ⟨rfl, rfl⟩
  | findPage q =>
    cases h
    obtain ⟨hrows, hstate⟩ := r.findPage_eq_find now q
    exact ⟨congrArg some hrows, hstate⟩

theorem cache_of_compile {q : QuerySpec} {query : Document.Query} (h : r.compile q = .ok query) :
    query.cache = q.cache.resolve r.config.cacheTime := by
  obtain ⟨p, hprepare, hquery⟩ := compile_eq_ok.1 h
  obtain ⟨_, rfl⟩ := prepare_eq_ok.1 hprepare
  obtain ⟨_, _, _, _, _, _, _, _, rfl⟩ := Document.Query.ofSpec_eq_ok.1 hquery
  exact resolve_settleCache _ _ _

theorem asked?_eq_some {op : Operation} {query : Document.Query} :
    r.asked? op = some query ↔ ∃ q, op.spec? = some q ∧ r.compile q = .ok query := by
  rw [asked?, Option.bind_eq_some_iff]
  refine exists_congr fun q => and_congr_right fun _ => ?_
  cases r.compile q with
  | error e => exact ⟨nofun, nofun⟩
  | ok query' => exact ⟨fun h => congrArg _ (Option.some.inj h), fun h => by cases h; rfl⟩

theorem asked?_of_compile {op : Operation} {q : QuerySpec} {query : Document.Query}
    (hop : op.spec? = some q) (h : r.compile q = .ok query) : r.asked? op = some query :=
  asked?_eq_some.2 ⟨q, hop, h⟩

end Runs

/-! ### What is kept -/

section Kept

variable (r : Repository σ provider)

/-- The rows that the operation leaves behind for some time may still be served at the moment. -/
def KeptUntil (t : Nat) (e : Nat × Operation) : Prop :=
  ∀ query d, r.asked? e.2 = some query → query.cache = some d → d.toNanos ≠ 0 →
    t < e.1 + d.toNanos

/-- After a run, a query that is kept for some time is found with the rows of the first time that it
was asked, and a query that is kept for no time is not found. -/
def Remembers (run : List (Nat × Operation)) (cache : RowCache) : Prop :=
  ∀ t, (∀ e ∈ run, e.1 ≤ t ∧ r.KeptUntil t e) → ∀ query d, query.cache = some d →
    cache.find? t (provider.key query) =
      if d.toNanos = 0 then none else r.firstRows query r.source run

variable {r} {run : List (Nat × Operation)} {e : Nat × Operation} {cache : RowCache}

theorem remembers_nil : r.Remembers [] [] := by
  intro t _ query d _
  rw [firstRows, ite_self]
  rfl

/-- An operation that puts nothing into the cache asks no query for the first time that is kept. -/
theorem Remembers.concat (h : r.Remembers run cache)
    (hfirst : ∀ t, (∀ e' ∈ run ++ [e], e'.1 ≤ t ∧ r.KeptUntil t e') → ∀ query d,
      r.asked? e.2 = some query → query.cache = some d → d.toNanos ≠ 0 →
      r.firstRows query r.source run ≠ none) : r.Remembers (run ++ [e]) cache := by
  intro t ht query d hd
  rw [h t (fun e' he' => ht e' (List.mem_append_left _ he')) query d hd, firstRows_concat]
  by_cases hzero : d.toNanos = 0
  · rw [if_pos hzero, if_pos hzero]
  · rw [if_neg hzero, if_neg hzero]
    by_cases hasked : r.asked? e.2 = some query
    · obtain ⟨rows, hrows⟩ := Option.ne_none_iff_exists'.1 (hfirst t ht query d hasked hd hzero)
      rw [hrows, Option.some_or]
    · rw [if_neg hasked, Option.or_none]

/-- Until the operation, all that is kept afterwards was kept. -/
theorem until_of_concat (hle : ∀ e' ∈ run, e'.1 ≤ e.1) {t : Nat}
    (ht : ∀ e' ∈ run ++ [e], e'.1 ≤ t ∧ r.KeptUntil t e') :
    ∀ e' ∈ run, e'.1 ≤ e.1 ∧ r.KeptUntil e.1 e' := by
  intro e' he'
  refine ⟨hle e' he', fun query d hasked hd hpos => ?_⟩
  have hlater : e.1 ≤ t := (ht e (List.mem_append_right _ (.head _))).1
  have hkept := (ht e' (List.mem_append_left _ he')).2 query d hasked hd hpos
  omega

/-- What is put into the cache are the rows of the first time. -/
theorem Remembers.remember (h : r.Remembers run cache) (hle : ∀ e' ∈ run, e'.1 ≤ e.1)
    {native : Document.Query} {time : Duration} (hasked : r.asked? e.2 = some native)
    (hcache : native.cache = some time) (hnone : cache.find? e.1 (provider.key native) = none) :
    r.Remembers (run ++ [e])
      (cache.remember e.1 (provider.key native) time ((r.source.after run).rows native)) := by
  intro t ht query d hd
  have hlater : e.1 ≤ t := (ht e (List.mem_append_right _ (.head _))).1
  rw [firstRows_concat, hasked]
  by_cases hquery : native = query
  · subst hquery
    cases hcache.symm.trans hd
    rw [RowCache.find?_remember_self, if_pos rfl]
    by_cases hzero : time.toNanos = 0
    · rw [if_neg (by omega), if_pos hzero]
    · have hkept := (ht e (List.mem_append_right _ (.head _))).2 native time hasked hcache hzero
      have hbefore := h e.1 (until_of_concat hle ht) native time hcache
      rw [hnone, if_neg hzero] at hbefore
      rw [if_pos hkept, if_neg hzero, ← hbefore, Option.none_or]
  · have hkey : provider.key query ≠ provider.key native :=
      fun heq => hquery (Document.Query.compact_eq_iff.1 heq).symm
    rw [RowCache.find?_remember_of_ne hkey hlater,
      h t (fun e' he' => ht e' (List.mem_append_left _ he')) query d hd,
      if_neg fun heq => hquery (Option.some.inj heq), Option.or_none]

/-- A query is answered without a change of the store, and what may be served again is kept. -/
theorem Remembers.find (h : r.Remembers run cache) (hle : ∀ e' ∈ run, e'.1 ≤ e.1)
    (executions : Nat) {q : QuerySpec} (hop : e.2.spec? = some q) :
    ∃ cache' executions',
      ((r.reached run cache executions).find e.1 q).2 = r.reached run cache' executions' ∧
      r.Remembers (run ++ [e]) cache' := by
  let r₁ := r.reached run cache executions
  cases hcompile : r.compile q with
  | error err =>
    have hasked : ∀ query, r.asked? e.2 ≠ some query := by
      intro query hsome
      obtain ⟨q', hq', hquery⟩ := asked?_eq_some.1 hsome
      cases hop.symm.trans hq'
      cases hcompile.symm.trans hquery
    refine ⟨cache, executions, congrArg Prod.snd (find_of_compile_error (r := r₁) hcompile), ?_⟩
    exact h.concat fun _ _ query _ hsome => absurd hsome (hasked query)
  | ok native =>
    have hasked := asked?_of_compile hop hcompile
    have hnative := cache_of_compile hcompile
    cases hcache : q.cache.resolve r.config.cacheTime with
    | none =>
      refine ⟨cache, executions + 1,
        congrArg Prod.snd (find_uncached (r := r₁) hcompile hcache), h.concat ?_⟩
      intro _ _ query d hsome hd
      cases hasked.symm.trans hsome
      cases (hnative.trans hcache).symm.trans hd
    | some time =>
      cases hfind : cache.find? e.1 (provider.key native) with
      | some rows =>
        refine ⟨cache, executions,
          congrArg Prod.snd (find_kept (r := r₁) hcompile hcache hfind), h.concat ?_⟩
        intro t ht query d hsome hd hpos hfirst
        cases hasked.symm.trans hsome
        have hbefore := h e.1 (until_of_concat hle ht) native d hd
        rw [hfind, if_neg hpos, hfirst] at hbefore
        cases hbefore
      | none =>
        exact ⟨_, executions + 1,
          congrArg Prod.snd (find_unkept (r := r₁) hcompile hcache hfind rfl),
          h.remember hle hasked (hnative.trans hcache) hfind⟩

/-- One operation changes the store as it says, and keeps what it is answered with. -/
theorem Remembers.perform (h : r.Remembers run cache) (hle : ∀ e' ∈ run, e'.1 ≤ e.1)
    (executions : Nat) :
    ∃ cache' executions',
      ((r.reached run cache executions).perform e.1 e.2).2 =
        r.reached (run ++ [e]) cache' executions' ∧
      r.Remembers (run ++ [e]) cache' := by
  have hstore := Store.after_concat r.source run e
  cases hop : e.2.spec? with
  | some q =>
    rw [Operation.store_of_spec? hop] at hstore
    rw [(perform_of_spec? hop e.1).2]
    simp only [reached, hstore]
    exact h.find hle executions hop
  | none =>
    obtain ⟨collection, doc, hinsert⟩ := Operation.eq_insert_of_spec? hop
    refine ⟨cache, executions, ?_, h.concat fun _ _ query _ hsome => ?_⟩
    · rw [hinsert] at hstore ⊢
      simp only [reached, hstore]
      rfl
    · obtain ⟨q, hq, _⟩ := asked?_eq_some.1 hsome
      cases hop.symm.trans hq

/-- A run leaves the store as its operations say, and what was asked for is remembered. -/
theorem exists_remembers (hnew : r.cache = []) (hclock : (run.map Prod.fst).Pairwise (· ≤ ·)) :
    ∃ cache executions,
      r.performAll run = r.reached run cache executions ∧ r.Remembers run cache := by
  induction run using List.reverseRecOn with
  | nil =>
    refine ⟨[], r.executions, ?_, remembers_nil⟩
    rw [← hnew]
    rfl
  | append_singleton run e ih =>
    rw [List.map_append, List.pairwise_append] at hclock
    obtain ⟨hrun, _, hle⟩ := hclock
    obtain ⟨cache, executions, hperform, hremembers⟩ := ih hrun
    have hle : ∀ e' ∈ run, e'.1 ≤ e.1 := fun e' he' =>
      hle _ (List.mem_map_of_mem he') _ (.head _)
    rw [performAll_concat, hperform]
    exact hremembers.perform hle executions

section Found

variable (h : r.Remembers run cache) {now : Nat}
  (huntil : ∀ e ∈ run, e.1 ≤ now ∧ r.KeptUntil now e) (executions : Nat) {q : QuerySpec}
  {query : Document.Query} (hcompile : r.compile q = .ok query)

include h huntil hcompile

/-- What must not be served again is read off the store. -/
theorem Remembers.find_fresh
    (hzero : ∀ d, q.cache.resolve r.config.cacheTime = some d → d.toNanos = 0) :
    ((r.reached run cache executions).find now q).1 =
      .ok ((r.source.after run).rows query) := by
  cases hcache : q.cache.resolve r.config.cacheTime with
  | none =>
    rw [find_uncached (r := r.reached run cache executions) hcompile hcache]
    rfl
  | some d =>
    have hnone : cache.find? now (provider.key query) = none := by
      rw [h now huntil query d ((cache_of_compile hcompile).trans hcache), if_pos (hzero d hcache)]
    rw [find_unkept (r := r.reached run cache executions) hcompile hcache hnone rfl]
    rfl

/-- What may be served again has the rows of the first time, if there was one. -/
theorem Remembers.find_first
    (hpos : ∃ d, q.cache.resolve r.config.cacheTime = some d ∧ d.toNanos ≠ 0) :
    ((r.reached run cache executions).find now q).1 =
      .ok ((r.firstRows query r.source run).getD ((r.source.after run).rows query)) := by
  obtain ⟨d, hcache, hpos⟩ := hpos
  have hfind := h now huntil query d ((cache_of_compile hcompile).trans hcache)
  rw [if_neg hpos] at hfind
  cases hfirst : r.firstRows query r.source run with
  | some rows =>
    rw [find_kept (r := r.reached run cache executions) hcompile hcache (hfind.trans hfirst),
      Option.getD_some]
  | none =>
    rw [find_unkept (r := r.reached run cache executions) hcompile hcache (hfind.trans hfirst) rfl,
      Option.getD_none]
    rfl

end Found

end Kept

/-! ### Answers -/

/-- The answer to a specification after a run. -/
structure Answered (r : Repository σ provider) (before : List (Nat × Operation)) (q : QuerySpec)
    (answer : Option (Except QueryError (List Json))) : Prop where
  source : (r.performAll before).source = r.source.after before
  refused : ∀ err, r.compile q = .error err → answer = some (.error err)
  /-- What must not be served again is answered from the store as it is. -/
  fresh : ∀ query, r.compile q = .ok query →
    (∀ d, q.cache.resolve r.config.cacheTime = some d → d.toNanos = 0) →
    answer = some (.ok ((r.source.after before).rows query))
  /-- What may be served again has the rows of the first time, if there was one. -/
  kept : ∀ query, r.compile q = .ok query →
    (∃ d, q.cache.resolve r.config.cacheTime = some d ∧ d.toNanos ≠ 0) →
    answer = some (.ok ((r.firstRows query r.source before).getD
      ((r.source.after before).rows query)))
  /-- The rows are those of the query itself, now or at an earlier time. -/
  own : ∀ query, r.compile q = .ok query →
    ∃ earlier, earlier <+: before ∧ answer = some (.ok ((r.source.after earlier).rows query))

/-- Operations on a new repository are answered from the store, or with the rows of the first time
that the same query was asked, as long as nothing that is kept for some time expires. -/
theorem answered_perform {r : Repository σ provider} (hnew : r.cache = [])
    {run before after : List (Nat × Operation)} {now : Nat} {op : Operation}
    (hrun : run = before ++ (now, op) :: after) (hclock : (run.map Prod.fst).Pairwise (· ≤ ·))
    (hlasting : ∀ e ∈ run, ∀ q d, e.2.spec? = some q →
      q.cache.resolve r.config.cacheTime = some d →
      d.toNanos = 0 ∨ ∀ e' ∈ run, e'.1 < e.1 + d.toNanos)
    {q : QuerySpec} (hop : op.spec? = some q) :
    r.Answered before q ((r.performAll before).perform now op).1.answer? := by
  rw [hrun, List.map_append, List.pairwise_append] at hclock
  obtain ⟨hbefore, _, hle⟩ := hclock
  have hmem : (now, op) ∈ run := hrun ▸ List.mem_append_right _ (.head _)
  have huntil : ∀ e ∈ before, e.1 ≤ now ∧ r.KeptUntil now e := by
    intro e he
    refine ⟨hle _ (List.mem_map_of_mem he) _ (.head _), fun query d hasked hd hpos => ?_⟩
    obtain ⟨q', hq', hcompile⟩ := asked?_eq_some.1 hasked
    have hresolve := (cache_of_compile hcompile).symm.trans hd
    have herun : e ∈ run := hrun ▸ List.mem_append_left _ he
    exact (hlasting e herun q' d hq' hresolve).resolve_left hpos (now, op) hmem
  obtain ⟨cache, executions, hperform, hremembers⟩ := exists_remembers hnew hbefore
  have hanswer : ((r.performAll before).perform now op).1.answer? =
      some ((r.reached before cache executions).find now q).1 := by
    rw [hperform]
    exact (perform_of_spec? hop now).1
  rw [hanswer]
  refine
    { source := congrArg Repository.source hperform
      refused := fun err herr => congrArg (some ·.1)
        (find_of_compile_error (r := r.reached before cache executions) herr)
      fresh := fun query hcompile hzero =>
        congrArg some (hremembers.find_fresh huntil executions hcompile hzero)
      kept := fun query hcompile hpos =>
        congrArg some (hremembers.find_first huntil executions hcompile hpos)
      own := fun query hcompile => ?_ }
  by_cases hzero : ∀ d, q.cache.resolve r.config.cacheTime = some d → d.toNanos = 0
  · exact ⟨before, List.prefix_rfl,
      congrArg some (hremembers.find_fresh huntil executions hcompile hzero)⟩
  · have hpos : ∃ d, q.cache.resolve r.config.cacheTime = some d ∧ d.toNanos ≠ 0 := by
      simpa using hzero
    rw [hremembers.find_first huntil executions hcompile hpos]
    cases hfirst : r.firstRows query r.source before with
    | none => exact ⟨before, List.prefix_rfl, rfl⟩
    | some rows =>
      obtain ⟨earlier, e, later, hsplit, _, _, hrows⟩ := firstRows_eq_some.1 hfirst
      exact ⟨earlier, hsplit ▸ List.prefix_append _ _, by rw [Option.getD_some, hrows]⟩

/-- The second article came too late for the page, which is served with the rows from before. -/
theorem answered_articles :
    ∃ (r : Repository .articles provider) (doc later : Json) (q : QuerySpec)
      (query : Document.Query),
      q.cache = .ttl ⟨3600, 0, by decide⟩ ∧ r.cache = [] ∧ r.compile q = .ok query ∧
      doc ≠ later ∧
      ((r.performAll [(0, .insert "articles" doc), (5, .find q),
        (7, .insert "articles" later)]).perform 9 (.findPage q)).1.answer? =
          some (.ok ((r.source.insert "articles" doc).rows query)) := by
  let q : QuerySpec := { QuerySpec.all "Article" with cache := .ttl ⟨3600, 0, by decide⟩ }
  let doc : Json := .mkObj [("title", .str "a")]
  let later : Json := .mkObj [("title", .str "b")]
  obtain ⟨r, _, hr⟩ := exists_ok_of_any
    (x := Repository.new .articles provider "Article" Store.empty)
    (p := fun r => r.cache = [] ∧ (r.compile q).toOption.isSome) (by decide +kernel)
  obtain ⟨hnew, hcompile⟩ := of_decide_eq_true hr
  obtain ⟨query, hcompile⟩ := exists_ok_of_isSome hcompile
  let before : List (Nat × Operation) :=
    [(0, .insert "articles" doc), (5, .find q), (7, .insert "articles" later)]
  have hlasting : ∀ e ∈ before ++ [(9, .findPage q)], ∀ q' d, e.2.spec? = some q' →
      q'.cache.resolve r.config.cacheTime = some d →
      d.toNanos = 0 ∨ ∀ e' ∈ before ++ [(9, .findPage q)], e'.1 < e.1 + d.toNanos := by
    have hmoment : ∀ e' ∈ before ++ [(9, .findPage q)], e'.1 ≤ 9 := by decide
    have hspec : ∀ e ∈ before ++ [(9, .findPage q)], ∀ q', e.2.spec? = some q' → q' = q := by
      simp [before, Operation.spec?, eq_comm]
    intro e he q' d hq' hd
    cases hspec e he q' hq'
    cases hd
    refine .inr fun e' he' => Nat.lt_of_le_of_lt (hmoment e' he') ?_
    have hnanos : 9 < (⟨3600, 0, by decide⟩ : Duration).toNanos := by decide
    omega
  have hrun : before ++ [(9, .findPage q)] = before ++ (9, .findPage q) :: [] := rfl
  have hanswered := answered_perform hnew hrun (by decide) hlasting rfl
  have hfirst : r.firstRows query r.source before =
      some ((r.source.insert "articles" doc).rows query) :=
    firstRows_eq_some.2 ⟨[(0, .insert "articles" doc)], (5, .find q), _, rfl,
      by simp [asked?, Operation.spec?], asked?_of_compile rfl hcompile, rfl⟩
  have hkept := hanswered.kept query hcompile ⟨_, rfl, by decide⟩
  rw [hfirst] at hkept
  exact ⟨r, doc, later, q, query, rfl, hnew, hcompile, by decide, hkept⟩

end Repository

end RowQuery
