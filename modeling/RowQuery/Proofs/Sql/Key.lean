import RowQuery.Proofs.Document.Serialized
import RowQuery.Proofs.Operator.RoundTrip
import RowQuery.Proofs.Path
import RowQuery.Proofs.Repository.Answer
import RowQuery.Sql.Provider

/-!
# The key of a statement

Rows are kept under the JSON text of the statement that they answer. It gives away the SQL, the time
that the rows are kept and what the operands appear to be (`Sql.Select.compact_eq_iff`), but not the
kinds of the operands: statements that bind a UUID and its text share their rows. Whatever the
database answers, a statement is served with the rows of a statement with the same key
(`Repository.Kept.exists_of_serve`).
-/

namespace RowQuery

open Sql

namespace Sql.Select

variable {s t : Select}

/-- The time that rows are kept shows in the JSON, also where there is none. -/
theorem cache_of_serialize {c d : Option Duration}
    (h : (c.map Duration.serialize).getD .null = (d.map Duration.serialize).getD .null) :
    c = d := by
  cases c with
  | none =>
    cases d with
    | none => rfl
    | some d => cases h
  | some c =>
    cases d with
    | none => cases h
    | some d => exact congrArg some (Duration.serialize_inj h)

theorem serialize_eq_iff : s.serialize = t.serialize ↔
    s.text = t.text ∧ s.cache = t.cache ∧
      Value.apparentItems s.operands = Value.apparentItems t.operands := by
  rw [← Value.map_serialize_eq_iff]
  constructor
  · intro h
    simp only [serialize, Json.obj.injEq, List.cons.injEq, Prod.mk.injEq, Json.str.injEq,
      Json.arr.injEq, true_and, and_true] at h
    obtain ⟨htext, hoperands, hcache⟩ := h
    exact ⟨htext, cache_of_serialize hcache, hoperands⟩
  · rintro ⟨htext, hcache, hoperands⟩
    rw [serialize, serialize, htext, hcache, hoperands]

/-- Two statements have the same key exactly if they look alike. -/
theorem compact_eq_iff : s.serialize.compact = t.serialize.compact ↔
    s.text = t.text ∧ s.cache = t.cache ∧
      Value.apparentItems s.operands = Value.apparentItems t.operands :=
  Json.compact_injective.eq_iff.trans serialize_eq_iff

end Sql.Select

/-! ### What is kept -/

namespace RowCache

variable {c : RowCache} {now : Nat} {key : String} {time : Duration} {rows : List Json}

theorem exists_mem_of_find? (h : c.find? now key = some rows) :
    ∃ e ∈ c, e.key = key ∧ e.rows = rows := by
  obtain ⟨e, he, hrows⟩ := Option.map_eq_some_iff.1 h
  have hkey := List.find?_some he
  rw [Bool.and_eq_true, beq_iff_eq] at hkey
  exact ⟨e, List.mem_of_find?_eq_some he, hkey.1, hrows⟩

theorem mem_remember {e : CachedRows} (h : e ∈ c.remember now key time rows) :
    e.key = key ∧ e.rows = rows ∨ e ∈ c := by
  rcases List.mem_cons.1 h with rfl | h
  · exact .inl ⟨rfl, rfl⟩
  · exact .inr (List.mem_filter.1 h).1

end RowCache

/-- A query at the moment `now`, with the database as it is then. -/
structure Request (Source : Type) where
  now : Nat
  source : Source
  spec : QuerySpec

namespace Repository

section Asked

variable {σ : Schema} {Source : Type} {execute : Source → Select → Except QueryError (List Json)}

def serve (r : Repository σ (provider execute)) (a : Request Source) :
    Except QueryError (List Json) × Repository σ (provider execute) :=
  { r with source := a.source }.find a.now a.spec

/-- The repository after one request after another. -/
def serveAll (r : Repository σ (provider execute)) (run : List (Request Source)) :
    Repository σ (provider execute) :=
  run.foldl (fun r a => (r.serve a).2) r

/-- Whether the rows are what the database answered to the statement of a request. -/
def IsAnswer (r : Repository σ (provider execute)) (a : Request Source) (s : Select)
    (rows : List Json) : Prop :=
  r.compile a.spec = .ok s ∧ execute a.source s = .ok rows

/-- All rows that are kept were answered to one of the requests, and have its key. -/
def Kept (asked : List (Request Source)) (r : Repository σ (provider execute)) : Prop :=
  ∀ e ∈ r.cache, ∃ a ∈ asked, ∃ s, r.IsAnswer a s e.rows ∧ e.key = s.serialize.compact

variable {r : Repository σ (provider execute)} {asked run : List (Request Source)}
  {a : Request Source} {rows : List Json}

/-- What a query means is up to the schema and the settings, which stay as they are. -/
theorem compile_serve (r : Repository σ (provider execute)) (a : Request Source) (q : QuerySpec) :
    (r.serve a).2.compile q = r.compile q := by
  rcases find_cases { r with source := a.source } a.now a.spec with
    ⟨_, _, hfind⟩ | ⟨_, _, ⟨_, _, hfind⟩ | ⟨_, hfind, _⟩⟩
  all_goals
    rw [serve, hfind]
    rfl

theorem compile_serveAll (run : List (Request Source)) (q : QuerySpec) :
    (r.serveAll run).compile q = r.compile q := by
  induction run generalizing r with
  | nil => rfl
  | cons a run ih => exact ih.trans (compile_serve r a q)

theorem Kept.serve (h : r.Kept asked) (ha : a ∈ asked) : (r.serve a).2.Kept asked := by
  have hcompile (q : QuerySpec) : (r.serve a).2.compile q = r.compile q := compile_serve r a q
  intro e he
  simp only [IsAnswer, hcompile]
  rcases find_cases { r with source := a.source } a.now a.spec with
    ⟨_, _, hfind⟩ | ⟨s, hs, ⟨_, _, hfind⟩ | ⟨cache, hfind, hcache⟩⟩
  all_goals rw [Repository.serve, hfind] at he
  · exact h e he
  · exact h e he
  · rcases hcache with rfl | ⟨time, rows, hexecute, rfl⟩
    · exact h e he
    · rcases RowCache.mem_remember he with ⟨hkey, hrows⟩ | he
      · exact ⟨a, ha, s, ⟨hs, hrows ▸ hexecute⟩, hkey⟩
      · exact h e he

theorem Kept.serveAll (h : r.Kept asked) (hrun : run ⊆ asked) : (r.serveAll run).Kept asked := by
  induction run generalizing r with
  | nil => exact h
  | cons a run ih =>
    obtain ⟨ha, hrest⟩ := List.cons_subset.1 hrun
    exact ih (h.serve ha) hrest

/-- Rows come from the database, now or when a statement with the same key was put to it. -/
theorem Kept.exists_of_serve (h : r.Kept asked) (ha : a ∈ asked) (hrows : (r.serve a).1 = .ok rows) :
    ∃ t, r.compile a.spec = .ok t ∧
      ∃ a' ∈ asked, ∃ s, r.IsAnswer a' s rows ∧ s.serialize.compact = t.serialize.compact := by
  rcases find_cases { r with source := a.source } a.now a.spec with
    ⟨_, _, hfind⟩ | ⟨t, ht, ⟨kept, hkept, hfind⟩ | ⟨_, hfind, _⟩⟩
  all_goals rw [Repository.serve, hfind] at hrows
  · cases hrows
  · cases hrows
    obtain ⟨e, he, hkey, rfl⟩ := RowCache.exists_mem_of_find? hkept
    obtain ⟨a', ha', s, hanswer, hs⟩ := h e he
    exact ⟨t, ht, a', ha', s, hanswer, hs.symm.trans hkey⟩
  · exact ⟨t, ht, a, ha, t, ⟨ht, hrows⟩, rfl⟩

end Asked

end Repository

/-! ### Two titles -/

/-- The articles of one title, kept for an hour. -/
def titled (v : Value) : List Directive :=
  [.filter "title" (.eq v), .shape (.cache (.ttl (.ofMillis 3600000)))]

/-- A database that answers its rows to every statement. -/
def answering : Provider Select (List Json) := provider fun rows _ => .ok rows

/-- The statements for two titles, and what a repository answers to the second after it has answered
the first, if the database has lost its row in between. -/
def serveTwice (v w : Value) : Except QueryError (Select × Select × List Json) := do
  let b₀ ← Builder.new .articles "Article"
  let b ← b₀.applyAll (titled v)
  let b' ← b₀.applyAll (titled w)
  let r ← Repository.new .articles answering "Article" []
  let s ← r.compile b.spec
  let t ← r.compile b'.spec
  let rows ← ((r.serveAll [⟨0, [.bool true], b.spec⟩]).serve ⟨1, [], b'.spec⟩).1
  return (s, t, rows)

theorem exists_of_serveTwice {v w : Value} {p : Select × Select × List Json → Bool}
    (h : (serveTwice v w).toOption.any p = true) :
    ∃ (b₀ b b' : Builder .articles) (s t : Select) (r : Repository .articles answering)
      (rows : List Json),
      Builder.new .articles "Article" = .ok b₀ ∧ b₀.applyAll (titled v) = .ok b ∧
      b₀.applyAll (titled w) = .ok b' ∧
      Repository.new .articles answering "Article" [] = .ok r ∧ r.compile b.spec = .ok s ∧
      r.compile b'.spec = .ok t ∧
      ((r.serveAll [⟨0, [.bool true], b.spec⟩]).serve ⟨1, [], b'.spec⟩).1 = .ok rows ∧
      p (s, t, rows) = true := by
  obtain ⟨_, h, hp⟩ := exists_ok_of_any h
  obtain ⟨b₀, h₀, h⟩ := bind_eq_ok.1 h
  obtain ⟨b, hb, h⟩ := bind_eq_ok.1 h
  obtain ⟨b', hb', h⟩ := bind_eq_ok.1 h
  obtain ⟨r, hr, h⟩ := bind_eq_ok.1 h
  obtain ⟨s, hs, h⟩ := bind_eq_ok.1 h
  obtain ⟨t, ht, h⟩ := bind_eq_ok.1 h
  obtain ⟨rows, hrows, h⟩ := bind_eq_ok.1 h
  cases h
  exact ⟨b₀, b, b', s, t, r, rows, h₀, hb, hb', hr, hs, ht, hrows, hp⟩

/-! ### What the key tells -/

/-- The key of a statement gives away its text, its time and the appearance of its operands. So two
statements with one key have the same operands, unless these differ in kind or in a float that is
not finite. After any run of requests, the rows that a statement is served with are what the
database answered to it or to an earlier one with the same text, time and appearance of its
operands. -/
theorem statement_key_faithful (s t : Select) :
    (s.serialize.compact = t.serialize.compact ↔
      s.text = t.text ∧ s.cache = t.cache ∧
        Value.apparentItems s.operands = Value.apparentItems t.operands) ∧
    (s.serialize.compact = t.serialize.compact → Value.sameKinds s.operands t.operands = true →
      Value.areFinite s.operands = true → Value.areFinite t.operands = true →
      s.operands = t.operands) ∧
    (∀ {σ : Schema} {Source : Type} {execute : Source → Select → Except QueryError (List Json)}
      (r : Repository σ (provider execute)) (run : List (Request Source)) (a : Request Source)
      (rows : List Json), r.cache = [] → r.compile a.spec = .ok t →
      ((r.serveAll run).serve a).1 = .ok rows →
      ∃ a' ∈ run ++ [a], ∃ s', r.IsAnswer a' s' rows ∧ s'.text = t.text ∧ s'.cache = t.cache ∧
        Value.apparentItems s'.operands = Value.apparentItems t.operands) := by
  refine ⟨Select.compact_eq_iff, fun hkey hkinds hs ht => ?_,
    fun r run a rows hnew hcompile hrows => ?_⟩
  · obtain ⟨_, _, hoperands⟩ := Select.compact_eq_iff.1 hkey
    exact Value.eq_of_apparentItems_eq _ _ hkinds hs ht hoperands
  · have hstart : r.Kept (run ++ [a]) := by
      intro e he
      rw [hnew] at he
      cases he
    have hkept := hstart.serveAll (List.subset_append_left run [a])
    obtain ⟨t', ht', a', ha', s', ⟨hs', hexecute⟩, hkey⟩ :=
      hkept.exists_of_serve (List.mem_append_right run (.head [])) hrows
    rw [Repository.compile_serveAll] at ht' hs'
    cases hcompile.symm.trans ht'
    exact ⟨a', ha', s', ⟨hs', hexecute⟩, Select.compact_eq_iff.1 hkey⟩

/-- Titles are asked for by two UUIDs. The second statement has a key of its own and gets no rows of
the first. -/
theorem statement_key_faithful_articles :
    ∃ (b₀ b b' : Builder .articles) (s t : Select) (r : Repository .articles answering),
      Builder.new .articles "Article" = .ok b₀ ∧ b₀.applyAll (titled (.uuid ⟨0⟩)) = .ok b ∧
      b₀.applyAll (titled (.uuid ⟨1⟩)) = .ok b' ∧
      Repository.new .articles answering "Article" [] = .ok r ∧ r.compile b.spec = .ok s ∧
      r.compile b'.spec = .ok t ∧ s.text = t.text ∧
      s.serialize.compact ≠ t.serialize.compact ∧
      ((r.serveAll [⟨0, [.bool true], b.spec⟩]).serve ⟨1, [], b'.spec⟩).1 = .ok [] ∧
      ∃ a ∈ [⟨0, [.bool true], b.spec⟩, ⟨1, [], b'.spec⟩], ∃ s', r.IsAnswer a s' [] ∧
        s'.text = t.text := by
  obtain ⟨b₀, b, b', s, t, r, rows, h₀, hb, hb', hr, hs, ht, hrows, hp⟩ :=
    exists_of_serveTwice (v := .uuid ⟨0⟩) (w := .uuid ⟨1⟩)
      (p := fun (s, t, rows) => s.text = t.text ∧ Value.sameKinds s.operands t.operands ∧
        Value.areFinite s.operands ∧ Value.areFinite t.operands ∧
        s.operands.map Value.text? ≠ t.operands.map Value.text? ∧ rows = [])
      (by decide +kernel)
  obtain ⟨htext, hkinds, hfinite, hfinite', hne, rfl⟩ := of_decide_eq_true hp
  obtain ⟨_, hkey, hrun⟩ := statement_key_faithful s t
  obtain ⟨a, ha, s', hanswer, htext', _⟩ := hrun r [⟨0, [.bool true], b.spec⟩] ⟨1, [], b'.spec⟩ []
    (Repository.cache_of_new hr) ht hrows
  exact ⟨b₀, b, b', s, t, r, h₀, hb, hb', hr, hs, ht, htext,
    fun h => hne (congrArg _ (hkey h hkinds hfinite hfinite')), hrows, a, ha, s', hanswer, htext'⟩

/-- Titles are asked for by a UUID and then by its text, which is another operand. The second
statement has the key of the first and is served with its rows. -/
theorem exists_compact_eq_operands_ne :
    ∃ (u : Uuid) (b₀ b b' : Builder .articles) (s t : Select) (r : Repository .articles answering),
      Builder.new .articles "Article" = .ok b₀ ∧ b₀.applyAll (titled (.uuid u)) = .ok b ∧
      b₀.applyAll (titled (.string u.text)) = .ok b' ∧
      Repository.new .articles answering "Article" [] = .ok r ∧ r.compile b.spec = .ok s ∧
      r.compile b'.spec = .ok t ∧ s.serialize.compact = t.serialize.compact ∧
      s.operands ≠ t.operands ∧
      ((r.serveAll [⟨0, [.bool true], b.spec⟩]).serve ⟨1, [], b'.spec⟩).1 = .ok [.bool true] := by
  let u : Uuid := ⟨0x67e5504410b1426f9247bb680e5fe0c8⟩
  obtain ⟨b₀, b, b', s, t, r, rows, h₀, hb, hb', hr, hs, ht, hrows, hp⟩ :=
    exists_of_serveTwice (v := .uuid u) (w := .string u.text)
      (p := fun (s, t, rows) => s.serialize = t.serialize ∧
        s.operands.map Value.kind ≠ t.operands.map Value.kind ∧ rows = [.bool true])
      (by decide +kernel)
  obtain ⟨hkey, hkinds, rfl⟩ := of_decide_eq_true hp
  exact ⟨u, b₀, b, b', s, t, r, h₀, hb, hb', hr, hs, ht, congrArg Json.compact hkey,
    fun h => hkinds (congrArg _ h), hrows⟩

end RowQuery
