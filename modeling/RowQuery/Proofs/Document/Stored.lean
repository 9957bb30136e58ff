import RowQuery.Proofs.Document.OneTest
import RowQuery.Proofs.Document.Order

/-!
# Searching for a value that was stored

A value is written in two ways, which differ in the mark of the zone of its timestamps only. So the
two are equal documents if, and only if, there is no timestamp in the value (`equalValues_encode`).
A search compares what is stored with the mark that documents have, and does not find a value that
was stored as it is serialized, if there is a timestamp in it (`mem_rows_stored_iff`).
-/

namespace RowQuery

open Document

/-! ### Values without timestamps -/

namespace Value

mutual

/-- There is no timestamp in the value. -/
def timeless : Value → Bool
  | .timestamp _ => false
  | .list items => areTimeless items
  | _ => true

def areTimeless : List Value → Bool
  | [] => true
  | v :: vs => v.timeless && areTimeless vs

end

end Value

/-- The mark of the zone is read off the text. -/
theorem Timestamp.text_zone_inj (t : Timestamp) {z w : String} :
    t.text z = t.text w ↔ z = w := by
  rw [text, text, String.ofList_inj, List.append_cancel_left_eq, String.toList_inj]

theorem Json.Number.numEq_self (n : Json.Number) : n.toDouble.numEq n.toDouble = true := by
  have hself : compare n.toDouble.key n.toDouble.key = .eq := Std.ReflCmp.compare_self
  rw [Double.numEq, compare?_toDouble, hself]
  rfl

theorem Json.Number.same_self (n : Json.Number) : n.same n = true := by
  cases n with
  | int n h => exact beq_self_eq_true n
  | float x h => exact numEq_self (.float x h)

/-! ### The two ways to write a value -/

namespace Value

variable (z w : String)

mutual

theorem same_encode : (v : Value) →
    (v.encode z).same (v.encode w) = (v.timeless || z == w)
  | .null => rfl
  | .bool b => beq_self_eq_true b
  | .int n => (Json.Number.ofInt64 n).same_self
  | .float x => by
    rw [encode, encode, Json.ofDouble]
    split
    · rename_i hx
      exact (Json.Number.float x hx).same_self
    · rfl
  | .string s => beq_self_eq_true s
  | .list items => sameItems_encodeItems items
  | .uuid u => beq_self_eq_true u.text
  | .timestamp t => by
    have htext : (t.text z == t.text w) = (z == w) := by
      rw [Bool.eq_iff_iff, beq_iff_eq, beq_iff_eq, t.text_zone_inj]
    exact htext

theorem sameItems_encodeItems : (vs : List Value) →
    Json.sameItems (encodeItems z vs) (encodeItems w vs) = (areTimeless vs || z == w)
  | [] => rfl
  | v :: vs => by
    rw [encodeItems, encodeItems, Json.sameItems, same_encode v, sameItems_encodeItems vs,
      areTimeless, Bool.or_and_distrib_right]

end

/-- What a value is written as with two marks is equal to a store if the marks are, or if there is
no timestamp to put them on. -/
theorem equalValues_encode (v : Value) :
    equalValues (v.encode z) (v.encode w) = (v.timeless || z == w) := by
  cases v with
  | int n => exact (Json.Number.ofInt64 n).numEq_self
  | float x =>
    rw [encode, encode, Json.ofDouble]
    split
    · rename_i hx
      exact (Json.Number.float x hx).numEq_self
    · rfl
  | _ => exact same_encode z w _

end Value

/-! ### Searches -/

section

variable {σ : Schema} {entity : String} {b₀ : Builder σ} {v : Value}

/-- A search for a value at a plain field finds it where it stands as documents have it, and where
it was stored as it is serialized if there is no timestamp in it. -/
theorem mem_rows_stored_iff (h₀ : Builder.new σ entity = .ok b₀) (hv : v.isNull = false)
    (field : String) :
    ((∃ b query, b₀.filter field (.eq v) = .ok b ∧
        Document.Query.ofSpec σ b.spec = .ok query) ↔ IsSegment field ∧ b₀.shape.HasPlain field) ∧
      ∀ b query, b₀.filter field (.eq v) = .ok b → Document.Query.ofSpec σ b.spec = .ok query →
        ∀ (store : Store) (doc : Json),
          (fieldOf doc field = v.toJson →
            (doc ∈ store.rows query ↔ doc ∈ store.documents b₀.shape.table)) ∧
          (fieldOf doc field = v.serialize →
            (doc ∈ store.rows query ↔
              doc ∈ store.documents b₀.shape.table ∧ v.timeless = true)) := by
  have hcondition : (Filter.eq v).condition? = .ok (some (.value v)) := by
    simp [Filter.condition?, hv]
  have hfilter : Filter.ofOperator field false (.equal v) = .ok (.field field .equal v.toJson) := by
    simp [Filter.ofOperator, hv]
  obtain ⟨haccepted, hfound⟩ :=
    Builder.mem_rows_test_iff h₀ (Directive.test?_filter hcondition rfl field) hfilter
  have hholds {doc : Json} {zone : String} (hdoc : fieldOf doc field = v.encode zone) :
      (Document.Filter.field field .equal v.toJson).holds doc =
        (v.timeless || zone == Value.offset) := by
    rw [Filter.holds_field, hdoc]
    exact v.equalValues_encode zone Value.offset
  refine ⟨haccepted, fun b query hb hquery store doc => ⟨fun hdoc => ?_, fun hdoc => ?_⟩⟩
  · rw [hfound b query hb hquery store doc, hholds hdoc, beq_self_eq_true, Bool.or_true]
    exact and_iff_left rfl
  · have hmark : ("Z" == Value.offset) = false := by decide
    rw [hfound b query hb hquery store doc, hholds hdoc, hmark, Bool.or_false]

end

/-- The evening of 14 November 2023. -/
def published : Timestamp := ⟨1700000000, 0, by decide⟩

/-- The titles of two articles, as they are serialized. -/
def storedTitles : Store where
  collections := [("articles", [.mkObj [("title", (Value.timestamp published).serialize)],
    .mkObj [("title", (Value.list [.string "a", .float .zero]).serialize)]])]

/-- A list without timestamps is found as it was stored. -/
theorem mem_rows_stored_articles :
    ∃ (b₀ b : Builder .articles) (query : Document.Query) (v : Value) (doc : Json),
      v = .list [.string "a", .float .zero] ∧ doc = .mkObj [("title", v.serialize)] ∧
      Builder.new .articles "Article" = .ok b₀ ∧ v.isNull = false ∧
      b₀.filter "title" (.eq v) = .ok b ∧ Document.Query.ofSpec .articles b.spec = .ok query ∧
      fieldOf doc "title" = v.serialize ∧ doc ∈ storedTitles.rows query := by
  obtain ⟨b₀, h₀, htable, hplain⟩ := Builder.exists_new_articles
  let v : Value := .list [.string "a", .float .zero]
  have hv : v.isNull = false := rfl
  obtain ⟨haccepted, hfound⟩ := mem_rows_stored_iff h₀ hv "title"
  obtain ⟨b, query, hb, hquery⟩ := haccepted.2 ⟨by decide, hplain⟩
  have hdoc : fieldOf (.mkObj [("title", v.serialize)]) "title" = v.serialize := rfl
  refine ⟨b₀, b, query, v, _, rfl, rfl, h₀, hv, hb, hquery, hdoc, ?_⟩
  refine ((hfound b query hb hquery storedTitles _).2 hdoc).2 ⟨?_, rfl⟩
  rw [htable]
  decide +kernel

/-- A timestamp is not found as it was stored. -/
theorem exists_stored_not_mem_rows :
    ∃ (b₀ b : Builder .articles) (query : Document.Query) (v : Value) (doc : Json),
      v = .timestamp published ∧ doc = .mkObj [("title", v.serialize)] ∧
      Builder.new .articles "Article" = .ok b₀ ∧ b₀.filter "title" (.eq v) = .ok b ∧
      Document.Query.ofSpec .articles b.spec = .ok query ∧ fieldOf doc "title" = v.serialize ∧
      doc ∈ storedTitles.documents b₀.shape.table ∧ doc ∉ storedTitles.rows query := by
  obtain ⟨b₀, h₀, htable, hplain⟩ := Builder.exists_new_articles
  let v : Value := .timestamp published
  have htest : (Directive.filter "title" (.eq v)).test? = some ("title", .equal v) := rfl
  have hfilter : Filter.ofOperator "title" false (.equal v) =
      .ok (.field "title" .equal v.toJson) := rfl
  obtain ⟨b, hb, hquery⟩ :=
    (Builder.ofSpec_test_eq_ok h₀ htest).2 ⟨by decide, hplain, _, hfilter, rfl⟩
  refine ⟨b₀, b, _, v, _, rfl, rfl, h₀, hb, hquery, rfl, ?_, fun hmem => ?_⟩
  · rw [htable]
    decide +kernel
  · have hholds := (Document.Query.mem_rows_ofFilter.1 hmem).2
    rw [Filter.holds_field] at hholds
    have hmark : (false || "Z" == Value.offset) = false := by decide
    exact Bool.false_ne_true
      (hmark.symm.trans ((v.equalValues_encode "Z" Value.offset).symm.trans hholds))

end RowQuery
