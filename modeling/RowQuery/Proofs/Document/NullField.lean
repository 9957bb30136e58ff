import RowQuery.Proofs.Document.OneTest

/-!
# Tests of fields that are null

A comparison with a value says nothing of a field that is null or missing, so such a field passes no
comparison, whichever way it is negated. The exception are floats that are not finite. They are
written as null, so a search for a field that equals one, or one of a list, finds the fields that
are null (`mem_rows_nullField_iff`).
-/

namespace RowQuery

open Document

/-! ### Values that are written as null -/

/-- The value is a float that is not finite. -/
def Value.isNonfinite : Value → Bool
  | .float x => !x.isFinite
  | _ => false

theorem Value.isNull_toJson_eq {v : Value} (hv : v.isNull = false) :
    v.toJson.isNull = v.isNonfinite := by
  cases v with
  | null => cases hv
  | float x =>
    have hjson : (float x).toJson = .ofDouble x := rfl
    cases hx : x.isFinite <;> simp [hjson, Json.ofDouble, isNonfinite, hx, Json.isNull]
  | _ => rfl

theorem Value.any_isNull_toJson_eq {vs : List Value} (hvs : ∀ v ∈ vs, v.isNull = false) :
    (vs.any fun v => v.toJson.isNull) = vs.any isNonfinite := by
  rw [Bool.eq_iff_iff, List.any_eq_true, List.any_eq_true]
  exact exists_congr fun v => and_congr_right fun hv => by rw [isNull_toJson_eq (hvs v hv)]

/-! ### Operators on null -/

/-- Whether an operator, or its negation, is passed by a field that is null. -/
def Operator.findsNull (negated : Bool) : Operator → Bool
  | .equal v => !negated && v.toJson.isNull
  | .oneOf vs => !negated && vs.any fun v => v.toJson.isNull
  | .isNull => !negated
  | .not o => o.findsNull (!negated)
  | _ => false

namespace Document

/-- Null passes the test for null, and otherwise it equals what is written as null. -/
theorem FieldOp.holds_null (op : FieldOp) (y : Json) :
    op.holds .null y =
      match op with
      | .equal => y.isNull
      | .oneOf => (y.items?.getD []).any Json.isNull
      | .isNull => true
      | _ => false := by
  have hcandidates (candidates : List Json) :
      candidates.any (equalValues .null) = candidates.any Json.isNull :=
    congrArg candidates.any (funext equalValues_null)
  cases op <;> simp [holds, equalValues_null, hcandidates, compareWithin?, Json.isNull, Json.items?]

/-- What the filter of an operator says of a field that is null. -/
theorem Filter.holds_ofOperator_null {field : String} {negated : Bool} {o : Operator} {f : Filter}
    (h : ofOperator field negated o = .ok f) {doc : Json} (hdoc : fieldOf doc field = .null) :
    f.holds doc = o.findsNull negated := by
  have htest (op : FieldOp) (y : Json) :
      (Filter.field field op y).holds doc = op.holds .null y := by
    rw [holds_field, hdoc]
  have hnullTest (negated : Bool) : (nullTest field negated).holds doc = !negated := by
    cases negated <;> rw [nullTest, htest, FieldOp.holds_null] <;> rfl
  induction o generalizing negated f with
  | equal v =>
    unfold ofOperator at h
    split at h
    · rename_i hv
      cases h
      rw [hnullTest, Operator.findsNull, Value.toJson_of_isNull hv]
      exact (Bool.and_true _).symm
    · cases h
      cases negated <;> rw [htest, FieldOp.holds_null] <;> rfl
  | oneOf vs =>
    unfold ofOperator at h
    split at h
    · cases h
    · cases h
      have hitems : ((list vs).items?.getD []).any Json.isNull =
          vs.any fun v => v.toJson.isNull := List.any_map
      cases negated with
      | false => exact (htest .oneOf _).trans ((FieldOp.holds_null .oneOf _).trans hitems)
      | true => exact (htest .notOneOf _).trans (FieldOp.holds_null .notOneOf _)
  | isNull =>
    cases h
    exact hnullTest negated
  | not o ih => exact ih h
  | between low high =>
    obtain ⟨rfl, rfl⟩ := positive_eq_ok.1 h
    rw [holds_and, List.all_cons, htest, FieldOp.holds_null]
    rfl
  | like p =>
    obtain ⟨g, hg, h⟩ := bind_eq_ok.1 h
    obtain ⟨_, _, h⟩ := bind_eq_ok.1 h
    cases h
    obtain ⟨rfl, rfl⟩ := positive_eq_ok.1 hg
    rw [holds_and, List.all_cons, htest, FieldOp.holds_null]
    rfl
  | arrayContains v =>
    obtain ⟨rfl, rfl⟩ := positive_eq_ok.1 h
    rw [htest, FieldOp.holds_null]
    rfl
  | arrayContainsAny vs =>
    obtain ⟨g, hg, h⟩ := bind_eq_ok.1 h
    obtain ⟨_, _, h⟩ := bind_eq_ok.1 h
    cases h
    obtain ⟨rfl, rfl⟩ := positive_eq_ok.1 hg
    rw [htest, FieldOp.holds_null]
    rfl
  | _ =>
    cases h
    cases negated <;> rw [htest, FieldOp.holds_null] <;> rfl

end Document

/-! ### Comparisons with values -/

/-- The filter compares its field with values that are not null, a range with one at least. -/
inductive Filter.ComparesValues : Filter → Prop
  | eq {v : Value} (hv : v.isNull = false) : ComparesValues (.eq v)
  | ne {v : Value} (hv : v.isNull = false) : ComparesValues (.ne v)
  | compare (c : Comparison) {v : Value} (hv : v.isNull = false) : ComparesValues (.compare c v)
  | between {low high : Value} (h : low.isNull = false ∨ high.isNull = false) :
    ComparesValues (.between low high)
  | startsWith {v : Value} (hv : v.isNull = false) :
    ComparesValues (.pattern .startsWith false v)
  | arrayContains {v : Value} (hv : v.isNull = false) : ComparesValues (.arrayContains v)
  | arrayContainsAny {vs : List Value} (hne : vs ≠ []) (hvs : ∀ v ∈ vs, v.isNull = false) :
    ComparesValues (.arrayContainsAny vs)

/-- The directive compares a field with values that are not null. -/
inductive Directive.ComparesValues (field : String) : Directive → Prop
  | filter {f : Filter} (hf : f.ComparesValues) : ComparesValues field (.filter field f)
  | oneOf {vs : List Value} (hne : vs ≠ []) (hvs : ∀ v ∈ vs, v.isNull = false) :
    ComparesValues field (.oneOf field vs)

/-- The directive asks for equality with a float that is not finite, or with one of a list that
holds such a float. -/
def Directive.equatesNonfinite : Directive → Bool
  | .filter _ (.eq v) => v.isNonfinite
  | .oneOf _ vs => vs.any Value.isNonfinite
  | _ => false

/-- A comparison has an operator with a filter, unless a list stands for the text of a prefix. Of
null it says nothing but what it says of floats that are not finite. -/
theorem Filter.ComparesValues.exists_operator {f : Filter} (hf : f.ComparesValues)
    (hlist : ∀ vs, f ≠ .pattern .startsWith false (.list vs)) (field : String) :
    ∃ c o g, f.condition? = .ok (some c) ∧ c.operator? = some o ∧
      Filter.ofOperator field false o = .ok g ∧
      o.findsNull false = (Directive.filter field f).equatesNonfinite := by
  cases hf with
  | @eq v hv =>
    refine ⟨.value v, _, .field field .equal v.toJson, ?_, rfl, ?_, Value.isNull_toJson_eq hv⟩
    · simp [condition?, hv]
    · simp [Filter.ofOperator, hv]
  | @ne v hv =>
    refine ⟨.op (.notEqual v), _, .field field .notEqual v.toJson, ?_, rfl, ?_, rfl⟩
    · simp [condition?, hv]
    · simp [Operator.notEqual, Filter.ofOperator, hv]
  | @compare c v hv =>
    have hcondition : (Filter.compare c v).condition? = .ok (some (.op (c.operator v))) := by
      simp [condition?, hv]
    cases c <;> exact ⟨_, _, _, hcondition, rfl, rfl, rfl⟩
  | @between low high h =>
    cases hlow : low.isNull with
    | true =>
      have hhigh : high.isNull = false := h.resolve_left (by simp [hlow])
      refine ⟨.op (.lessThanOrEqual high), _, _, ?_, rfl, rfl, rfl⟩
      simp [condition?, hlow, hhigh]
    | false =>
      cases hhigh : high.isNull with
      | true =>
        refine ⟨.op (.moreThanOrEqual low), _, _, ?_, rfl, rfl, rfl⟩
        simp [condition?, hlow, hhigh]
      | false =>
        refine ⟨.op (.between low high), _, _, ?_, rfl, rfl, rfl⟩
        simp [condition?, hlow, hhigh]
  | @startsWith v hv =>
    obtain ⟨t, ht⟩ : ∃ t, v.text? = some t := by
      cases v with
      | null => cases hv
      | list vs => exact absurd rfl (hlist vs)
      | _ => exact ⟨_, rfl⟩
    refine ⟨.op (.like ⟨.startsWith, t, false⟩), _, _, ?_, rfl, rfl, rfl⟩
    simp [condition?, hv, ht]
  | @arrayContains v hv =>
    refine ⟨.op (.arrayContains v), _, _, ?_, rfl, rfl, rfl⟩
    simp [condition?, hv]
  | @arrayContainsAny vs hne hvs =>
    refine ⟨.op (.arrayContainsAny vs), _, .field field .arrayContainsAny (Filter.list vs), rfl,
      rfl, ?_, rfl⟩
    cases vs with
    | nil => exact absurd rfl hne
    | cons => rfl

theorem Directive.ComparesValues.exists_test {field : String} {d : Directive}
    (hd : d.ComparesValues field)
    (hlist : ∀ vs, d ≠ .filter field (.pattern .startsWith false (.list vs))) :
    ∃ o g, d.test? = some (field, o) ∧ Filter.ofOperator field false o = .ok g ∧
      o.findsNull false = d.equatesNonfinite := by
  cases hd with
  | filter hf =>
    obtain ⟨c, o, g, hc, ho, hg, hnull⟩ :=
      hf.exists_operator (fun vs h => hlist vs (congrArg _ h)) field
    exact ⟨o, g, test?_filter hc ho field, hg, hnull⟩
  | @oneOf vs hne hvs =>
    refine ⟨.oneOf vs, .field field .oneOf (Filter.list vs), rfl, ?_,
      Value.any_isNull_toJson_eq hvs⟩
    cases vs with
    | nil => exact absurd rfl hne
    | cons => rfl

/-! ### Searches -/

section

variable {σ : Schema} {entity field : String} {b₀ : Builder σ} {d : Directive}

/-- A list has no text to start with. -/
theorem Builder.ne_startsWith_list {b b' : Builder σ} (h : b.apply d = .ok b') (vs : List Value) :
    d ≠ .filter field (.pattern .startsWith false (.list vs)) := by
  rintro rfl
  have hcondition : ∃ c, (Filter.pattern .startsWith false (.list vs)).condition? = .ok c := by
    rcases filter_eq_ok.1 h with ⟨hc, _⟩ | ⟨c, hc, _⟩
    · exact ⟨_, hc⟩
    · exact ⟨_, hc⟩
  exact Filter.condition?_eq_ok.1 hcondition _ _ vs rfl

/-- Of the documents whose field is null or missing, a comparison of the field with values finds
none, or all of them where it asks for equality with a float that is not finite; and only there can
such a document meet a chain that ends with the comparison. -/
theorem mem_rows_nullField_iff (h₀ : Builder.new σ entity = .ok b₀) (hd : d.ComparesValues field) :
    ((∃ b query, b₀.apply d = .ok b ∧ Document.Query.ofSpec σ b.spec = .ok query) ↔
        IsSegment field ∧ b₀.shape.HasPlain field ∧
          ∀ vs, d ≠ .filter field (.pattern .startsWith false (.list vs))) ∧
      (∀ b query, b₀.apply d = .ok b → Document.Query.ofSpec σ b.spec = .ok query →
        ∀ (store : Store) (doc : Json), fieldOf doc field = .null →
          (doc ∈ store.rows query ↔
            doc ∈ store.documents b₀.shape.table ∧ d.equatesNonfinite = true)) ∧
      ∀ (b b' : Builder σ) query, b.apply d = .ok b' →
        Document.Query.ofSpec σ b'.spec = .ok query → ∀ doc, fieldOf doc field = .null →
          query.isMet doc = true → d.equatesNonfinite = true := by
  refine ⟨⟨?_, ?_⟩, ?_, ?_⟩
  · rintro ⟨b, query, hb, hquery⟩
    have hlist : ∀ vs, d ≠ .filter field (.pattern .startsWith false (.list vs)) :=
      Builder.ne_startsWith_list hb
    obtain ⟨o, g, htest, hg, _⟩ := hd.exists_test hlist
    obtain ⟨hseg, hplain⟩ := (Builder.mem_rows_test_iff h₀ htest hg).1.1 ⟨b, query, hb, hquery⟩
    exact ⟨hseg, hplain, hlist⟩
  · rintro ⟨hseg, hplain, hlist⟩
    obtain ⟨o, g, htest, hg, _⟩ := hd.exists_test hlist
    exact (Builder.mem_rows_test_iff h₀ htest hg).1.2 ⟨hseg, hplain⟩
  · intro b query hb hquery store doc hdoc
    obtain ⟨o, g, htest, hg, hnull⟩ := hd.exists_test (Builder.ne_startsWith_list hb)
    rw [(Builder.mem_rows_test_iff h₀ htest hg).2 b query hb hquery store doc,
      Filter.holds_ofOperator_null hg hdoc, hnull]
  · intro b b' query hb' hquery doc hdoc hmet
    obtain ⟨o, g, htest, hg, hnull⟩ := hd.exists_test (Builder.ne_startsWith_list hb')
    obtain ⟨f, hf, hholds⟩ := Builder.holds_of_isMet_of_apply htest hb' hquery
    cases hg.symm.trans hf
    rw [← hnull, ← Filter.holds_ofOperator_null hg hdoc]
    exact hholds doc hmet

end

/-- Two articles without a title, in one of which it is missing. -/
def untitled : Store where
  collections := [("articles", [.mkObj [("title", .null)], .mkObj [("author", .str "a")],
    .mkObj [("title", .str "a")]])]

/-- A null title is not found among those that differ from a text. -/
theorem not_mem_rows_nullField_articles :
    ∃ (b₀ b : Builder .articles) (query : Document.Query) (d : Directive) (doc : Json),
      d = .filter "title" (.ne (.string "a")) ∧ doc = .mkObj [("title", .null)] ∧
      Builder.new .articles "Article" = .ok b₀ ∧ d.ComparesValues "title" ∧
      b₀.apply d = .ok b ∧ Document.Query.ofSpec .articles b.spec = .ok query ∧
      fieldOf doc "title" = .null ∧ doc ∈ untitled.documents b₀.shape.table ∧
      doc ∉ untitled.rows query := by
  obtain ⟨b₀, h₀, htable, hplain⟩ := Builder.exists_new_articles
  have hd : Directive.ComparesValues "title" (.filter "title" (.ne (.string "a"))) :=
    .filter (.ne rfl)
  obtain ⟨haccepted, hfound, _⟩ := mem_rows_nullField_iff h₀ hd
  obtain ⟨b, query, hb, hquery⟩ := haccepted.2 ⟨by decide, hplain, nofun⟩
  have hnull : fieldOf (.mkObj [("title", .null)]) "title" = .null := rfl
  refine ⟨b₀, b, query, _, _, rfl, rfl, h₀, hd, hb, hquery, hnull, ?_, fun hmem => ?_⟩
  · rw [htable]
    decide +kernel
  · exact Bool.false_ne_true ((hfound b query hb hquery untitled _ hnull).1 hmem).2

/-- A null title and a missing one are found among those that equal a float that is no number. -/
theorem exists_nonfinite_mem_rows :
    ∃ (b₀ b : Builder .articles) (query : Document.Query) (d : Directive),
      d = .filter "title" (.eq (.float .nan)) ∧
      Builder.new .articles "Article" = .ok b₀ ∧ d.ComparesValues "title" ∧
      b₀.apply d = .ok b ∧ Document.Query.ofSpec .articles b.spec = .ok query ∧
      fieldOf (.mkObj [("title", .null)]) "title" = .null ∧
      .mkObj [("title", .null)] ∈ untitled.rows query ∧
      fieldOf (.mkObj [("author", .str "a")]) "title" = .null ∧
      .mkObj [("author", .str "a")] ∈ untitled.rows query := by
  obtain ⟨b₀, h₀, htable, hplain⟩ := Builder.exists_new_articles
  have hd : Directive.ComparesValues "title" (.filter "title" (.eq (.float .nan))) :=
    .filter (.eq rfl)
  have htest : (Directive.filter "title" (.eq (.float .nan))).test? =
      some ("title", .equal (.float .nan)) := rfl
  have hfilter : Filter.ofOperator "title" false (.equal (.float .nan)) =
      .ok (.field "title" .equal .null) := rfl
  obtain ⟨b, hb, hquery⟩ :=
    (Builder.ofSpec_test_eq_ok h₀ htest).2 ⟨by decide, hplain, _, hfilter, rfl⟩
  refine ⟨b₀, b, _, _, rfl, h₀, hd, hb, hquery, rfl, ?_, rfl, ?_⟩
  · rw [Document.Query.mem_rows_ofFilter, htable]
    decide +kernel
  · rw [Document.Query.mem_rows_ofFilter, htable]
    decide +kernel

end RowQuery
