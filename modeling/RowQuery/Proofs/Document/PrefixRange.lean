import Mathlib.Data.String.Basic
import RowQuery.Proofs.Document.OneTest

/-!
# Searching a document store for a prefix

A search for a prefix is translated to a range of strings, from the prefix up to the prefix with
`prefixEnd` behind it. Strings are compared character by character, so the range holds the strings
that go on from the prefix with a character below `prefixEnd`, or not at all. What goes on with a
later character, like an emoji, is out of the range and is not found (`mem_rows_startsWith_iff`).
-/

namespace RowQuery

open Document

/-! ### Ranges of strings -/

namespace Text

/-- The lists from `t` up to `t` with `c` behind it go on from `t` with a character below `c`. -/
theorem mem_range_concat_iff {t l : List Char} {c : Char} :
    ¬ l < t ∧ l < t ++ [c] ↔ ∃ r, l = t ++ r ∧ ∀ d ∈ r.head?, d < c := by
  induction t generalizing l with
  | nil =>
    cases l with
    | nil => simp
    | cons d l => simp [List.cons_lt_cons_iff]
  | cons a t ih =>
    cases l with
    | nil => simp
    | cons d l =>
      -- from below the range asks for `a ≤ d`, from above for `d ≤ a`
      have hrange : ¬ d :: l < a :: t ∧ d :: l < a :: t ++ [c] ↔
          d = a ∧ ¬ l < t ∧ l < t ++ [c] := by
        rw [List.cons_append, List.cons_lt_cons_iff, List.cons_lt_cons_iff, not_or, not_and]
        constructor
        · rintro ⟨⟨hda, hlow⟩, hlt | ⟨heq, hhigh⟩⟩
          · exact absurd hlt hda
          · exact ⟨heq, hlow heq, hhigh⟩
        · rintro ⟨rfl, hlow, hhigh⟩
          exact ⟨⟨lt_irrefl _, fun _ => hlow⟩, .inr ⟨rfl, hhigh⟩⟩
      rw [hrange, ih]
      constructor
      · rintro ⟨rfl, r, rfl, hr⟩
        exact ⟨r, rfl, hr⟩
      · rintro ⟨r, hl, hr⟩
        obtain ⟨rfl, rfl⟩ := List.cons.inj hl
        exact ⟨rfl, r, rfl, hr⟩

/-- The strings from `t` up to `t` with `c` behind it go on from `t` with a character below `c`. -/
theorem mem_range_push_iff {t s : String} {c : Char} :
    t ≤ s ∧ s < t.push c ↔ ∃ r : String, s = t ++ r ∧ ∀ d ∈ r.toList.head?, d < c := by
  rw [← Std.not_lt, String.lt_iff_toList_lt, String.lt_iff_toList_lt, String.toList_push,
    mem_range_concat_iff]
  constructor
  · rintro ⟨r, hs, hr⟩
    exact ⟨String.ofList r, String.toList_injective (by simpa using hs), by simpa using hr⟩
  · rintro ⟨r, rfl, hr⟩
    exact ⟨r.toList, by simp, hr⟩

end Text

/-! ### The filter of a prefix -/

namespace Document

/-- What a search for the prefix `t` finds: the text itself, and texts that go on from it with a
character before `prefixEnd`. -/
def InPrefixRange (t s : String) : Prop :=
  ∃ r : String, s = t ++ r ∧ ∀ c ∈ r.toList.head?, c < prefixEnd

/-- The range of a prefix, as a filter of a field. -/
def Filter.prefixRange (field t : String) : Filter :=
  .and [.field field .greaterThanOrEqual (.str t),
    .field field .lessThan (.str (t.push prefixEnd))]

/-- The range of a prefix holds strings only. -/
theorem Filter.holds_prefixRange {field t : String} {doc : Json} :
    (Filter.prefixRange field t).holds doc = true ↔
      ∃ s, fieldOf doc field = .str s ∧ InPrefixRange t s := by
  rw [prefixRange, holds_and, List.all_cons, List.all_cons, List.all_nil, Bool.and_true,
    Bool.and_eq_true, holds_field, holds_field, FieldOp.holds_greaterThanOrEqual,
    FieldOp.holds_lessThan]
  cases hvalue : fieldOf doc field with
  | str s =>
    have hlow : (compare s t).isGE = true ↔ t ≤ s := Std.LawfulLECmp.isGE_iff_ge
    have hhigh : (compare s (t.push prefixEnd) == .lt) = true ↔ s < t.push prefixEnd := by
      rw [beq_iff_eq, compare_lt_iff_lt]
    simp only [compareWithin?, Option.any_some, hlow, hhigh, Text.mem_range_push_iff,
      Json.str.injEq, exists_eq_left', InPrefixRange]
  | _ => simp [compareWithin?]

/-- The query for the documents of a collection that a search for a prefix finds. -/
def Query.ofPrefix (collection field t : String) : Query where
  collection := collection
  filter := some (.prefixRange field t)
  order := []
  select := []
  offset := none
  limit := none
  cache := none

theorem Query.mem_rows_ofPrefix {collection field t : String} {store : Store} {doc : Json} :
    doc ∈ store.rows (.ofPrefix collection field t) ↔
      doc ∈ store.documents collection ∧ ∃ s, fieldOf doc field = .str s ∧ InPrefixRange t s := by
  rw [← Filter.holds_prefixRange]
  exact mem_rows_ofFilter

end Document

theorem Filter.condition?_startsWith {t : String} {v : Value} (hv : v.text? = some t) :
    (Filter.pattern .startsWith false v).condition? =
      .ok (some (.op (.like ⟨.startsWith, t, false⟩))) := by
  cases v with
  | null => cases hv
  | _ => simp [condition?, Value.isNull, hv]

/-! ### Searches -/

section

variable {σ : Schema} {entity field t : String} {b₀ : Builder σ} {v : Value}

/-- A search for a prefix can be asked of a store at a plain field of the entity only. -/
theorem ofSpec_startsWith_eq_ok (h₀ : Builder.new σ entity = .ok b₀) (hv : v.text? = some t)
    {query : Document.Query} :
    (∃ b, b₀.filter field (.pattern .startsWith false v) = .ok b ∧
        Document.Query.ofSpec σ b.spec = .ok query) ↔
      IsSegment field ∧ b₀.shape.HasPlain field ∧ query = .ofPrefix b₀.shape.table field t := by
  have hfilter : Filter.ofOperator field false (.like ⟨.startsWith, t, false⟩) =
      .ok (.prefixRange field t) := rfl
  have htest := Directive.test?_filter (Filter.condition?_startsWith hv) rfl field
  refine (Builder.ofSpec_test_eq_ok h₀ htest).trans ?_
  simp only [hfilter, Except.ok.injEq, exists_eq_left']
  exact Iff.rfl

/-- A search for a prefix at a plain field finds the documents whose field holds the prefix itself
or goes on from it with a character before `prefixEnd`, and no others. -/
theorem mem_rows_startsWith_iff (h₀ : Builder.new σ entity = .ok b₀) (hv : v.text? = some t)
    (field : String) :
    ((∃ b query, b₀.filter field (.pattern .startsWith false v) = .ok b ∧
        Document.Query.ofSpec σ b.spec = .ok query) ↔ IsSegment field ∧ b₀.shape.HasPlain field) ∧
      ∀ b query, b₀.filter field (.pattern .startsWith false v) = .ok b →
        Document.Query.ofSpec σ b.spec = .ok query → ∀ (store : Store) (doc : Json),
          doc ∈ store.rows query ↔ doc ∈ store.documents b₀.shape.table ∧
            ∃ s, fieldOf doc field = .str s ∧ InPrefixRange t s := by
  constructor
  · rw [exists_comm]
    simp only [ofSpec_startsWith_eq_ok h₀ hv, exists_and_left, exists_eq, and_true]
  · intro b query hb hquery store doc
    obtain ⟨_, _, rfl⟩ := (ofSpec_startsWith_eq_ok h₀ hv).1 ⟨b, hb, hquery⟩
    exact Document.Query.mem_rows_ofPrefix

end

/-- Three titles that start with "Jo", one of which goes on with an emoji. -/
def johns : Store where
  collections := [("articles", [.mkObj [("title", .str "Jo")], .mkObj [("title", .str "John")],
    .mkObj [("title", .str "Jo😀")], .mkObj [("title", .str "J")]])]

theorem exists_startsWith_articles :
    ∃ b₀ b : Builder .articles, Builder.new .articles "Article" = .ok b₀ ∧
      b₀.shape.table = "articles" ∧
      b₀.filter "title" (.pattern .startsWith false (.string "Jo")) = .ok b ∧
      Document.Query.ofSpec .articles b.spec = .ok (.ofPrefix "articles" "title" "Jo") := by
  obtain ⟨b₀, h₀, htable, hplain⟩ := Builder.exists_new_articles
  have htext : (Value.string "Jo").text? = some "Jo" := rfl
  obtain ⟨b, hb, hquery⟩ := (ofSpec_startsWith_eq_ok h₀ htext).2 ⟨by decide, hplain, rfl⟩
  exact ⟨b₀, b, h₀, htable, hb, htable ▸ hquery⟩

/-- A title that goes on with a letter is found. -/
theorem mem_rows_startsWith_articles :
    ∃ (b₀ b : Builder .articles) (query : Document.Query),
      Builder.new .articles "Article" = .ok b₀ ∧ (Value.string "Jo").text? = some "Jo" ∧
      b₀.filter "title" (.pattern .startsWith false (.string "Jo")) = .ok b ∧
      Document.Query.ofSpec .articles b.spec = .ok query ∧
      .mkObj [("title", .str "John")] ∈ johns.rows query := by
  obtain ⟨b₀, b, h₀, htable, hb, hquery⟩ := exists_startsWith_articles
  have hhead : "hn".toList.head? = some 'h' := by decide +kernel
  refine ⟨b₀, b, _, h₀, rfl, hb, hquery, ?_⟩
  refine ((mem_rows_startsWith_iff h₀ rfl "title").2 b _ hb hquery johns _).2 ⟨?_, "John", ?_, ?_⟩
  · rw [htable]
    decide +kernel
  · decide +kernel
  · refine ⟨"hn", by decide +kernel, fun d hd => ?_⟩
    cases hhead.symm.trans hd
    decide

/-- A search for a prefix misses a title that goes on from it with an emoji. -/
theorem exists_startsWith_not_mem_rows :
    ∃ (b₀ b : Builder .articles) (query : Document.Query) (doc : Json),
      doc = .mkObj [("title", .str ("Jo" ++ "😀"))] ∧
      Builder.new .articles "Article" = .ok b₀ ∧
      b₀.filter "title" (.pattern .startsWith false (.string "Jo")) = .ok b ∧
      Document.Query.ofSpec .articles b.spec = .ok query ∧ doc ∈ johns.documents query.collection ∧
      doc ∉ johns.rows query := by
  obtain ⟨b₀, b, h₀, _, hb, hquery⟩ := exists_startsWith_articles
  refine ⟨b₀, b, _, _, rfl, h₀, hb, hquery, by decide +kernel, ?_⟩
  rw [Document.Query.rows_eq_filter rfl rfl rfl rfl]
  decide +kernel

end RowQuery
