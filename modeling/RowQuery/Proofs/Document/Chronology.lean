import RowQuery.Proofs.Document.OneTest
import RowQuery.Proofs.Document.Rows
import RowQuery.Proofs.Timestamp.Order

/-!
# Points in time in documents

Documents have points in time as texts, and a store compares texts. As these are in the order of
time, every test of a field by points in time says what it says of the points themselves, and to
sort by the field is to put the documents in the order of time (`chronological`).
-/

namespace RowQuery

open Document

/-- A point in time outside leap seconds, in a year of four digits. -/
structure Moment where
  time : Timestamp
  standard : time.Standard

namespace Moment

def value (t : Moment) : Value := .timestamp t.time

/-- A moment as it stands in a document. -/
def toJson (t : Moment) : Json := t.value.toJson

/-- The time in nanoseconds from the start of 1970. -/
def instant (t : Moment) : Int := t.time.instant

/-! ### Moments of documents compared -/

theorem compareWithin?_toJson (t u : Moment) :
    compareWithin? t.toJson u.toJson = some (compare t.instant u.instant) :=
  congrArg some (Timestamp.compare_text t.standard u.standard)

theorem compareValues_toJson (t u : Moment) :
    compareValues t.toJson u.toJson = compare t.instant u.instant := by
  rw [compareValues, compareWithin?_toJson, Option.getD_some]

theorem equalValues_toJson (t u : Moment) :
    equalValues t.toJson u.toJson = true ↔ t.instant = u.instant := by
  have hsame : equalValues t.toJson u.toJson =
      (t.time.text Value.offset == u.time.text Value.offset) := rfl
  rw [hsame, beq_iff_eq, ← compare_eq_iff_eq, Timestamp.compare_text t.standard u.standard,
    compare_eq_iff_eq]
  rfl

/-- Only a moment itself has a place in the order that is its own. -/
theorem compareValues_toJson_eq_iff {t : Moment} {x : Json} :
    compareValues t.toJson x = .eq ↔ x = t.toJson := by
  constructor
  · intro h
    cases x with
    | str s =>
      have htext : compare (t.time.text Value.offset) s = .eq := h
      exact congrArg Json.str (compare_eq_iff_eq.1 htext).symm
    | _ => cases h
  · rintro rfl
    exact Std.ReflCmp.compare_self

end Moment

/-! ### Tests by moments -/

/-- A test of a field by moments. -/
inductive TimeTest where
  | equal (u : Moment)
  | compare (c : Comparison) (u : Moment)
  | between (first last : Moment)

/-- What a comparison says of two numbers. -/
def Comparison.Relates : Comparison → Int → Int → Prop
  | .gt, x, y | .notLte, x, y => y < x
  | .gte, x, y | .notLt, x, y => y ≤ x
  | .lt, x, y | .notGte, x, y => x < y
  | .lte, x, y | .notGt, x, y => x ≤ y

namespace TimeTest

def filter : TimeTest → RowQuery.Filter
  | equal u => .eq u.value
  | compare c u => .compare c u.value
  | between first last => .between first.value last.value

/-- What the test says of a moment, in the order of time. -/
def Holds : TimeTest → Moment → Prop
  | equal u, t => t.instant = u.instant
  | compare c u, t => c.Relates t.instant u.instant
  | between first last, t => first.instant ≤ t.instant ∧ t.instant ≤ last.instant

end TimeTest

/-! ### Filters of tests by moments -/

namespace Comparison

/-- The test of a store that a comparison becomes. -/
def fieldOp : Comparison → FieldOp
  | gt | notLte => .greaterThan
  | gte | notLt => .greaterThanOrEqual
  | lt | notGte => .lessThan
  | lte | notGt => .lessThanOrEqual

theorem ofOperator_operator (c : Comparison) (field : String) (v : Value) :
    Filter.ofOperator field false (c.operator v) = .ok (.field field c.fieldOp v.toJson) := by
  cases c <;> rfl

theorem holds_fieldOp (c : Comparison) (t u : Moment) :
    c.fieldOp.holds t.toJson u.toJson = true ↔ c.Relates t.instant u.instant := by
  have hcompare := t.compareWithin?_toJson u
  cases c with
  | gt | notLte =>
    rw [fieldOp, FieldOp.holds_greaterThan, hcompare, Option.any_some, beq_iff_eq,
      compare_gt_iff_gt]
    rfl
  | gte | notLt =>
    rw [fieldOp, FieldOp.holds_greaterThanOrEqual, hcompare, Option.any_some]
    exact Std.LawfulLECmp.isGE_iff_ge
  | lt | notGte =>
    rw [fieldOp, FieldOp.holds_lessThan, hcompare, Option.any_some, beq_iff_eq,
      compare_lt_iff_lt]
    rfl
  | lte | notGt =>
    rw [fieldOp, FieldOp.holds_lessThanOrEqual, hcompare, Option.any_some]
    exact Std.LawfulLECmp.isLE_iff_le

end Comparison

/-- The filter of a test by moments says of a moment what the test says. -/
theorem TimeTest.exists_filter (test : TimeTest) (field : String) :
    ∃ c o f, test.filter.condition? = .ok (some c) ∧ c.operator? = some o ∧
      Filter.ofOperator field false o = .ok f ∧
      ∀ doc t, fieldOf doc field = Moment.toJson t → (f.holds doc = true ↔ test.Holds t) := by
  cases test with
  | equal u =>
    refine ⟨.value u.value, _, .field field .equal u.toJson, rfl, rfl, rfl, fun doc t hdoc => ?_⟩
    rw [Filter.holds_field, hdoc]
    exact t.equalValues_toJson u
  | compare c u =>
    refine ⟨.op (c.operator u.value), _, _, rfl, rfl, c.ofOperator_operator field u.value,
      fun doc t hdoc => ?_⟩
    rw [Filter.holds_field, hdoc]
    exact c.holds_fieldOp t u
  | between first last =>
    refine ⟨.op (.between first.value last.value), _, _, rfl, rfl, rfl, fun doc t hdoc => ?_⟩
    rw [Filter.holds_and, List.all_cons, List.all_cons, List.all_nil, Bool.and_true,
      Bool.and_eq_true, Filter.holds_field, Filter.holds_field, hdoc]
    exact and_congr (Comparison.gte.holds_fieldOp t first) (Comparison.lte.holds_fieldOp t last)

/-! ### Sorting by moments -/

/-- The order of two numbers, up or down. -/
def Direction.compare (direction : Direction) (x y : Int) : Ordering :=
  match direction with
  | .asc => Ord.compare x y
  | .desc => Ord.compare y x

/-- The rows are the documents in the order of the moments under a field, up or down, and those that
hold one moment are in the order they came in. -/
structure InOrderOfTime (direction : Direction) (field : String) (docs rows : List Json) :
    Prop where
  perm : rows.Perm docs
  ordered : rows.Pairwise fun x y => ∀ t u : Moment, fieldOf x field = t.toJson →
    fieldOf y field = u.toJson → (direction.compare t.instant u.instant).isLE = true
  stable : ∀ t : Moment, rows.filter (fun doc => fieldOf doc field = t.toJson) =
    docs.filter fun doc => fieldOf doc field = t.toJson

namespace Document

variable {direction : Direction} {field : String} {x y : Json} {t u : Moment}

theorem compareAt_moments (hx : fieldOf x field = t.toJson) (hy : fieldOf y field = u.toJson) :
    compareAt ⟨field, direction⟩ x y = direction.compare t.instant u.instant := by
  cases direction with
  | asc =>
    rw [compareAt, hx, hy]
    exact t.compareValues_toJson u
  | desc =>
    rw [compareAt, hx, hy, t.compareValues_toJson u]
    exact Std.OrientedCmp.eq_swap.symm

theorem compareAt_moment_eq_iff (hx : fieldOf x field = t.toJson) :
    compareAt ⟨field, direction⟩ x y = .eq ↔ fieldOf y field = t.toJson := by
  rw [← Moment.compareValues_toJson_eq_iff, ← hx]
  cases direction with
  | asc => exact Iff.rfl
  | desc => exact Ordering.swap_eq_eq

theorem compareBy_singleton (o : OrderBy) : compareBy [o] = compareAt o := by
  funext x y
  rw [compareBy_cons, compareLex]
  exact Ordering.then_eq

theorem inOrderOfTime_of_isStableSort {docs rows : List Json}
    (h : IsStableSort (compareBy [⟨field, direction⟩]) docs rows) :
    InOrderOfTime direction field docs rows := by
  rw [compareBy_singleton] at h
  refine ⟨h.perm, h.sorted.imp fun hxy t u hx hy => ?_, fun t => ?_⟩
  · rwa [compareAt_moments hx hy] at hxy
  · -- the ties of a document with the moment are the documents with this moment
    have hx : fieldOf (.mkObj [(field, t.toJson)]) field = t.toJson := by
      simp [fieldOf, Json.member?_mkObj_cons, Json.member?_mkObj_nil]
    have hties := h.stable (.mkObj [(field, t.toJson)])
    have htest (y : Json) :
        (compareAt ⟨field, direction⟩ (.mkObj [(field, t.toJson)]) y == .eq) =
          decide (fieldOf y field = t.toJson) := by
      rw [Bool.eq_iff_iff, beq_iff_eq, decide_eq_true_iff, compareAt_moment_eq_iff hx]
    simpa only [ties, htest] using hties

/-- The query for all documents of a collection, put in order by sort keys. -/
def Query.ofOrder (collection : String) (order : List OrderBy) : Query where
  collection := collection
  filter := none
  order := order
  select := []
  offset := none
  limit := none
  cache := none

theorem isStableSort_rows_ofOrder (store : Store) (collection : String) (order : List OrderBy) :
    IsStableSort (compareBy order) (store.documents collection)
      (store.rows (.ofOrder collection order)) := by
  have hall : (store.documents collection).filter (Query.ofOrder collection order).isMet =
      store.documents collection := List.filter_true _
  have hsorted := (Query.ofOrder collection order).isStableSort_matching
    (store.documents collection)
  rw [hall] at hsorted
  rw [Query.rows_eq_matching rfl rfl rfl]
  exact hsorted

/-- To sort by a field can be asked of a store at a plain field of the entity itself. -/
theorem ofSpec_sort_eq_ok {σ : Schema} {entity : String} {b₀ : Builder σ}
    (h₀ : Builder.new σ entity = .ok b₀) {direction : Direction} {field : String} {query : Query} :
    (∃ b, b₀.sort direction field = .ok b ∧ Query.ofSpec σ b.spec = .ok query) ↔
      IsSegment field ∧ b₀.shape.HasPlain field ∧
        query = .ofOrder b₀.shape.table [⟨field, direction⟩] := by
  obtain ⟨s, hs, _, rfl⟩ := Builder.new_eq_ok.1 h₀
  constructor
  · rintro ⟨b, hb, hquery⟩
    have hb : (Builder.start s hs .root).shaped (.sort direction field) = .ok b := hb
    obtain ⟨⟨hseg, hplain⟩, rfl⟩ := Builder.shaped_eq_ok.1 hb
    obtain ⟨s', filter, hs', hfilter, _, _, _, _, rfl⟩ := Query.ofSpec_eq_ok.1 hquery
    obtain rfl := Schema.eq_of_shape_eq_ok hs hs'
    cases hfilter
    exact ⟨hseg, hplain, rfl⟩
  · rintro ⟨hseg, ⟨f, hf, hrelation⟩, rfl⟩
    have hb : (Builder.start s hs .root).shaped (.sort direction field) = .ok _ :=
      Builder.shaped_eq_ok.2 ⟨⟨hseg, f, hf, hrelation⟩, rfl⟩
    refine ⟨_, hb, Query.ofSpec_eq_ok.2
      ⟨s, none, Schema.shape_eq_ok.2 hs, rfl, rfl, rfl, ?_, rfl, rfl⟩⟩
    refine Shape.requireFields_eq_ok.2 fun name hname => ?_
    obtain rfl : name = field := List.mem_singleton.1 hname
    exact Option.isSome_iff_exists.2 ⟨f, hf⟩

end Document

/-! ### The order of time -/

/-- A test of a plain field by moments finds, of the documents with a moment there, those for which
it holds in the order of time; to sort by the field is to put these documents in the order of time,
and as one of several sort keys the field decides by the order of time too. -/
theorem chronological {σ : Schema} {entity : String} {b₀ : Builder σ}
    (h₀ : Builder.new σ entity = .ok b₀) (field : String) :
    (∀ test : TimeTest,
      ((∃ b query, b₀.filter field test.filter = .ok b ∧
          Document.Query.ofSpec σ b.spec = .ok query) ↔
        IsSegment field ∧ b₀.shape.HasPlain field) ∧
      ∀ b query, b₀.filter field test.filter = .ok b →
        Document.Query.ofSpec σ b.spec = .ok query → ∀ (store : Store) (doc : Json) (t : Moment),
          fieldOf doc field = t.toJson →
            (doc ∈ store.rows query ↔ doc ∈ store.documents b₀.shape.table ∧ test.Holds t)) ∧
    (∀ direction,
      ((∃ b query, b₀.sort direction field = .ok b ∧
          Document.Query.ofSpec σ b.spec = .ok query) ↔
        IsSegment field ∧ b₀.shape.HasPlain field) ∧
      ∀ b query, b₀.sort direction field = .ok b → Document.Query.ofSpec σ b.spec = .ok query →
        ∀ store : Store,
          InOrderOfTime direction field (store.documents b₀.shape.table) (store.rows query)) ∧
    ∀ direction order x y (t u : Moment), fieldOf x field = t.toJson → fieldOf y field = u.toJson →
      compareBy (⟨field, direction⟩ :: order) x y =
        (direction.compare t.instant u.instant).then (compareBy order x y) := by
  refine ⟨fun test => ?_, fun direction => ?_, fun direction order x y t u hx hy => ?_⟩
  · obtain ⟨c, o, f, hcondition, hc, hf, hholds⟩ := test.exists_filter field
    obtain ⟨haccepted, hfound⟩ :=
      Builder.mem_rows_test_iff h₀ (Directive.test?_filter hcondition hc field) hf
    refine ⟨haccepted, fun b query hb hquery store doc t hdoc => ?_⟩
    rw [hfound b query hb hquery store doc, hholds doc t hdoc]
  · constructor
    · rw [exists_comm]
      simp only [ofSpec_sort_eq_ok h₀, exists_and_left, exists_eq, and_true]
    · intro b query hb hquery store
      obtain ⟨_, _, rfl⟩ := (ofSpec_sort_eq_ok h₀).1 ⟨b, hb, hquery⟩
      exact inOrderOfTime_of_isStableSort (isStableSort_rows_ofOrder store _ _)
  · rw [compareBy_cons, compareLex, compareAt_moments hx hy]

/-- Two moments in one second, of which the first has no fraction. -/
def onTheSecond : Moment := ⟨⟨1600000000, 0, by decide⟩, by decide +kernel⟩

def halfASecondLater : Moment := ⟨⟨1600000000, 500000000, by decide⟩, by decide +kernel⟩

def dated : Store where
  collections := [("articles", [.mkObj [("title", halfASecondLater.toJson)],
    .mkObj [("title", onTheSecond.toJson)]])]

/-- The moment without a fraction is found before the other one, and sorted before it. -/
theorem chronological_articles :
    ∃ (b₀ b b' : Builder .articles) (query sorted : Document.Query) (x y : Json),
      x = .mkObj [("title", onTheSecond.toJson)] ∧
      y = .mkObj [("title", halfASecondLater.toJson)] ∧
      Builder.new .articles "Article" = .ok b₀ ∧
      b₀.filter "title" (.compare .lt halfASecondLater.value) = .ok b ∧
      Document.Query.ofSpec .articles b.spec = .ok query ∧
      x ∈ dated.rows query ∧ y ∉ dated.rows query ∧
      b₀.sort .asc "title" = .ok b' ∧ Document.Query.ofSpec .articles b'.spec = .ok sorted ∧
      InOrderOfTime .asc "title" [y, x] (dated.rows sorted) := by
  obtain ⟨b₀, h₀, htable, hplain⟩ := Builder.exists_new_articles
  obtain ⟨htests, hsorts, _⟩ := chronological h₀ "title"
  obtain ⟨haccepted, hfound⟩ := htests (.compare .lt halfASecondLater)
  obtain ⟨b, query, hb, hquery⟩ := haccepted.2 ⟨by decide, hplain⟩
  obtain ⟨haccepted', hordered⟩ := hsorts .asc
  obtain ⟨b', sorted, hb', hsorted⟩ := haccepted'.2 ⟨by decide, hplain⟩
  have htitle (t : Moment) : fieldOf (.mkObj [("title", t.toJson)]) "title" = t.toJson := rfl
  have hdocuments : dated.documents b₀.shape.table =
      [.mkObj [("title", halfASecondLater.toJson)], .mkObj [("title", onTheSecond.toJson)]] := by
    rw [htable]
    rfl
  refine ⟨b₀, b, b', query, sorted, _, _, rfl, rfl, h₀, hb, hquery, ?_, fun hmem => ?_, hb', hsorted,
    hdocuments ▸ hordered b' sorted hb' hsorted dated⟩
  · refine (hfound b query hb hquery dated _ _ (htitle onTheSecond)).2 ⟨?_, ?_⟩
    · rw [hdocuments]
      exact .tail _ (.head _)
    · exact (by decide : onTheSecond.instant < halfASecondLater.instant)
  · have hlater := (hfound b query hb hquery dated _ _ (htitle halfASecondLater)).1 hmem
    exact Int.lt_irrefl _ hlater.2

end RowQuery
