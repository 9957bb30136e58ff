import RowQuery.Proofs.Builder.Run
import RowQuery.Proofs.Document.Meaning

/-!
# Asking a document store for one test

A directive that tests one field writes one operator at its path (`Directive.test?`). As the only
directive of a chain it can be asked of a store at a plain field of the entity itself, and it finds
the documents that pass the filter of the operator (`mem_rows_test_iff`). At the end of a longer
chain it finds no others than these (`holds_of_isMet_of_apply`).
-/

namespace RowQuery

open Document

/-- The operator that a condition has for its field, unless it is a tree. -/
def Condition.operator? : Condition → Option Operator
  | .value v => some (.equal v)
  | .op o => some o
  | .nested _ => none

theorem Condition.isLeaf_of_operator? {c : Condition} {o : Operator} (h : c.operator? = some o) :
    c.isLeaf := by
  cases c with
  | nested t => cases h
  | _ => trivial

/-- The path and the operator of a directive that tests a field. -/
def Directive.test? : Directive → Option (String × Operator)
  | .filter path f => (f.added?.bind Condition.operator?).map (path, ·)
  | .oneOf path vs => some (path, .oneOf vs)
  | .join _ _ | .or _ | .shape _ => none

theorem Directive.test?_filter {f : RowQuery.Filter} {c : Condition} {o : Operator}
    (hf : f.condition? = .ok (some c)) (hc : c.operator? = some o) (path : String) :
    (Directive.filter path f).test? = some (path, o) := by
  rw [test?, Filter.added?_of_condition? hf, Option.bind_some, hc, Option.map_some]

theorem Schema.eq_of_shape_eq_ok {σ : Schema} {name : String} {s s' : Shape}
    (hs : σ.shape? name = some s) (h : σ.shape name = .ok s') : s = s' :=
  Option.some.inj (hs.symm.trans (Schema.shape_eq_ok.1 h))

/-! ### Filters of one test -/

namespace Document

/-- The query for the documents of a collection that pass a filter, all of them. -/
def Query.ofFilter (collection : String) (filter : Filter) : Query where
  collection := collection
  filter := some filter
  order := []
  select := []
  offset := none
  limit := none
  cache := none

/-- Without a selection and a window a store answers with the documents that a query is about. -/
theorem Query.rows_eq_matching {q : Query} (hselect : q.select = []) (hoffset : q.offset = none)
    (hlimit : q.limit = none) (store : Store) :
    store.rows q = q.matching (store.documents q.collection) := by
  have hproject : project q.select = id := by
    funext doc
    rw [hselect]
    rfl
  rw [Store.rows, answer, window, hproject, hoffset, hlimit]
  simp

/-- Without sort keys these are the documents that pass the filter, as they came. -/
theorem Query.rows_eq_filter {q : Query} (horder : q.order = []) (hselect : q.select = [])
    (hoffset : q.offset = none) (hlimit : q.limit = none) (store : Store) :
    store.rows q = (store.documents q.collection).filter q.isMet := by
  rw [rows_eq_matching hselect hoffset hlimit, matching, horder]
  exact List.mergeSort_of_pairwise (List.pairwise_of_forall fun _ _ => rfl)

theorem Query.mem_rows_ofFilter {collection : String} {filter : Filter} {store : Store}
    {doc : Json} :
    doc ∈ store.rows (.ofFilter collection filter) ↔
      doc ∈ store.documents collection ∧ filter.holds doc = true := by
  rw [rows_eq_filter rfl rfl rfl rfl, List.mem_filter]
  rfl

namespace Filter

variable {s : Shape} {c : Condition} {f : Filter} {o : Operator}

/-- A condition has a filter at a field of the shape if it has an operator that has one. -/
theorem ofCondition_eq_ok_iff {key : String} :
    ofCondition s key c = .ok f ↔
      (∃ field, s.field? key = some field) ∧
        ∃ o, c.operator? = some o ∧ ofOperator key false o = .ok f := by
  simp only [ofCondition, bind_eq_ok, Shape.requireField_eq_ok]
  constructor
  · rintro ⟨field, hfield, h⟩
    cases c with
    | value v => exact ⟨⟨field, hfield⟩, _, rfl, h⟩
    | op o => exact ⟨⟨field, hfield⟩, _, rfl, h⟩
    | nested t => cases h
  · rintro ⟨⟨field, hfield⟩, o, hc, h⟩
    cases c with
    | value v => cases hc; exact ⟨field, hfield, h⟩
    | op o => cases hc; exact ⟨field, hfield, h⟩
    | nested t => cases hc

/-- A test has a filter at a field of the shape itself only. -/
theorem ofPredicate_path_eq_ok {p : FieldPath} (hc : c.operator? = some o)
    {filter : Option Filter} :
    ofPredicate s (.all (p.predicate c)) = .ok filter ↔
      p.isNested = false ∧ (∃ field, s.field? p.leaf = some field) ∧
        ∃ f, ofOperator p.leaf false o = .ok f ∧ filter = some f := by
  obtain ⟨ks, hne, hks⟩ := p
  cases ks with
  | nil => exact absurd rfl hne
  | cons k ks =>
    cases ks with
    | nil =>
      simp only [FieldPath.predicate, PredicateTree.atPath, ofPredicate, ofTree, List.mapM_cons,
        List.mapM_nil, bind_eq_ok, ofCondition_eq_ok_iff, hc, Option.some.injEq, exists_eq_left',
        FieldPath.leaf, List.getLast_singleton]
      constructor
      · rintro ⟨_, ⟨f, ⟨hfield, hf⟩, _, h', hfs⟩, hfilter⟩
        cases h'
        cases hfs
        cases hfilter
        exact ⟨rfl, hfield, f, hf, rfl⟩
      · rintro ⟨_, hfield, f, hf, rfl⟩
        exact ⟨_, ⟨f, ⟨hfield, hf⟩, _, rfl, rfl⟩, rfl⟩
    | cons k' ks =>
      -- the first key has a tree under it, for which there is no filter
      simp only [FieldPath.predicate, PredicateTree.atPath, ofPredicate, ofTree, List.mapM_cons,
        bind_eq_ok, ofCondition_eq_ok_iff, FieldPath.isNested]
      constructor
      · rintro ⟨_, ⟨_, ⟨_, _, h, _⟩, _⟩, _⟩
        cases h
      · rintro ⟨h, _⟩
        simp at h

/-- Every condition of a tree has a part in its filters. -/
theorem exists_mem_ofTree {t : PredicateTree} {fs : List Filter} (h : ofTree s t = .ok fs)
    {key : String} (hmem : (key, c) ∈ t) :
    ∃ o f, c.operator? = some o ∧ ofOperator key false o = .ok f ∧ f ∈ fs := by
  induction t generalizing fs with
  | nil => cases hmem
  | cons e t ih =>
    rw [ofTree, List.mapM_cons] at h
    obtain ⟨g, hg, h⟩ := bind_eq_ok.1 h
    obtain ⟨fs', hfs, h⟩ := bind_eq_ok.1 h
    cases h
    rcases List.mem_cons.1 hmem with rfl | hmem
    · obtain ⟨_, o, ho, hf⟩ := ofCondition_eq_ok_iff.1 hg
      exact ⟨o, g, ho, hf, List.mem_cons_self⟩
    · obtain ⟨o, f, ho, hf, hmem⟩ := ih hfs hmem
      exact ⟨o, f, ho, hf, .tail _ hmem⟩

end Filter

end Document

/-- The last test that is written at a path stands in the tree, below the first key of the path. -/
theorem PredicateTree.mem_merge_path (t : PredicateTree) (p : FieldPath) {c : Condition}
    {o : Operator} (hc : c.operator? = some o) :
    (p.isNested = false ∧ (p.leaf, c) ∈ t.merge (p.predicate c)) ∨
      ∃ k u, (k, Condition.nested u) ∈ t.merge (p.predicate c) := by
  obtain ⟨ks, hne, hks⟩ := p
  cases ks with
  | nil => exact absurd rfl hne
  | cons k ks =>
    cases ks with
    | nil =>
      have hwritten : c.writeOver (Keyed.find? k t) = c := by
        cases Keyed.find? k t with
        | none => exact c.writeOver_none
        | some d => exact Condition.writeOver_of_isLeaf (.inl (Condition.isLeaf_of_operator? hc))
      refine .inl ⟨rfl, Keyed.mem_of_find? ?_⟩
      simp [FieldPath.predicate, atPath, merge_cons, FieldPath.leaf, hwritten]
    | cons k' ks =>
      obtain ⟨u, hu⟩ : ∃ u, (Condition.nested (atPath (k' :: ks) c)).writeOver
          (Keyed.find? k t) = .nested u := by
        cases Keyed.find? k t with
        | none => exact ⟨_, Condition.writeOver_none _⟩
        | some d =>
          cases d with
          | nested v => exact ⟨_, rfl⟩
          | _ => exact ⟨_, Condition.writeOver_of_isLeaf (.inr trivial)⟩
      refine .inr ⟨k, u, Keyed.mem_of_find? ?_⟩
      simp [FieldPath.predicate, atPath, merge_cons, hu]

/-! ### Directives of one test -/

namespace Builder

variable {σ : Schema} {entity field : String} {b b₀ b' : Builder σ} {d : Directive} {o : Operator}

/-- A directive of one test writes its condition, and a chain that it closes is written alike. -/
theorem exists_write_of_test? (hd : d.test? = some (field, o)) :
    ∃ call c, c.operator? = some o ∧
      (∀ {b b' : Builder σ}, b.apply d = .ok b' →
        ∃ b₁, b.write call field c = .ok b₁ ∧ b'.spec = b₁.spec) ∧
      ∀ {b b₁ : Builder σ}, b.scope = .root → b.write call field c = .ok b₁ →
        ∃ b', b.apply d = .ok b' ∧ b'.spec = b₁.spec := by
  cases d with
  | filter path f =>
    obtain ⟨o', ho', h⟩ := Option.map_eq_some_iff.1 hd
    obtain ⟨c, hadded, hc⟩ := Option.bind_eq_some_iff.1 ho'
    cases h
    have hcondition : f.condition? = .ok (some c) := by
      rw [Filter.added?] at hadded
      split at hadded
      · rename_i hok
        exact hok.trans (congrArg _ hadded)
      · cases hadded
    refine ⟨f.call, c, hc, fun h => ?_, fun _ h => ?_⟩
    · rcases filter_eq_ok.1 h with ⟨hnone, _⟩ | ⟨c', hc', hwrite⟩
      · rw [hcondition] at hnone
        cases hnone
      · rw [hcondition] at hc'
        cases hc'
        exact ⟨_, hwrite, rfl⟩
    · exact ⟨_, filter_eq_ok.2 (.inr ⟨c, hcondition, h⟩), rfl⟩
  | oneOf path vs =>
    cases hd
    refine ⟨.whereIn, .op (.oneOf vs), rfl, fun h => ?_, fun hscope h => ?_⟩
    · obtain ⟨_, b₁, hwrite, rfl⟩ := oneOf_eq_ok.1 h
      exact ⟨b₁, hwrite, rfl⟩
    · exact ⟨_, oneOf_eq_ok.2 ⟨hscope, _, h, rfl⟩, rfl⟩
  | _ => cases hd

/-- A test as the first directive of a chain can be asked of a store at a plain field of the entity
itself, if its operator has a filter. -/
theorem ofSpec_test_eq_ok (h₀ : new σ entity = .ok b₀) (hd : d.test? = some (field, o))
    {query : Document.Query} :
    (∃ b, b₀.apply d = .ok b ∧ Document.Query.ofSpec σ b.spec = .ok query) ↔
      IsSegment field ∧ b₀.shape.HasPlain field ∧
        ∃ f, Filter.ofOperator field false o = .ok f ∧ query = .ofFilter b₀.shape.table f := by
  obtain ⟨call, c, hc, hwrite, happly⟩ := exists_write_of_test? (σ := σ) hd
  obtain ⟨s, hs, _, rfl⟩ := new_eq_ok.1 h₀
  have hfresh (p : FieldPath) : PredicateTree.merge [] (p.predicate c) = p.predicate c :=
    PredicateTree.merge_nil_atPath _ _
  constructor
  · rintro ⟨b, hb, hq⟩
    obtain ⟨b₁, hb₁, hspec⟩ := hwrite hb
    obtain ⟨_, p, hp, ⟨⟨t', f'⟩, hr⟩, t, ht, rfl⟩ := write_eq_ok.1 hb₁
    cases ht
    rw [hspec, hfresh] at hq
    obtain ⟨s', filter, hs', hfilter, _, _, _, _, rfl⟩ := Document.Query.ofSpec_eq_ok.1 hq
    obtain rfl := Schema.eq_of_shape_eq_ok hs hs'
    obtain ⟨hn, _, f, hf, rfl⟩ := (Filter.ofPredicate_path_eq_ok hc).1 hfilter
    have hseg : IsSegment field := FieldPath.parse_not_isNested.1 ⟨p, hp, hn⟩
    obtain rfl := Except.ok.inj (hp.symm.trans (FieldPath.parse_segment hseg))
    obtain ⟨ht', hf', hrelation⟩ := FieldPath.resolve_eq_ok.1 hr
    cases ht'
    exact ⟨hseg, ⟨f', hf', hrelation⟩, f, hf, rfl⟩
  · rintro ⟨hseg, ⟨f', hf', hrelation⟩, f, hf, rfl⟩
    have hr : FieldPath.resolve _ σ s = .ok (s, f') :=
      FieldPath.resolve_eq_ok (p := FieldPath.ofSegment hseg).2 ⟨rfl, hf', hrelation⟩
    obtain ⟨b, hb, hspec⟩ := happly (b := start s hs .root) rfl (write_eq_ok.2
      ⟨rfl, _, FieldPath.parse_segment hseg, ⟨_, hr⟩, [], rfl, rfl⟩)
    refine ⟨b, hb, ?_⟩
    rw [hspec, hfresh]
    exact Document.Query.ofSpec_eq_ok.2 ⟨s, some f, Schema.shape_eq_ok.2 hs,
      (Filter.ofPredicate_path_eq_ok hc).2 ⟨rfl, ⟨f', hf'⟩, f, hf, rfl⟩, rfl, rfl, rfl, rfl, rfl⟩

/-- A test as the only directive of a chain finds the documents that pass its filter. -/
theorem mem_rows_test_iff (h₀ : new σ entity = .ok b₀) (hd : d.test? = some (field, o))
    {f : Document.Filter} (hf : Filter.ofOperator field false o = .ok f) :
    ((∃ b query, b₀.apply d = .ok b ∧ Document.Query.ofSpec σ b.spec = .ok query) ↔
        IsSegment field ∧ b₀.shape.HasPlain field) ∧
      ∀ b query, b₀.apply d = .ok b → Document.Query.ofSpec σ b.spec = .ok query →
        ∀ (store : Store) (doc : Json), doc ∈ store.rows query ↔
          doc ∈ store.documents b₀.shape.table ∧ f.holds doc = true := by
  constructor
  · rw [exists_comm]
    simp only [ofSpec_test_eq_ok h₀ hd, hf, Except.ok.injEq, exists_eq_left', exists_and_left,
      exists_eq, and_true]
  · intro b query hb hquery store doc
    obtain ⟨_, _, g, hg, rfl⟩ := (ofSpec_test_eq_ok h₀ hd).1 ⟨b, hb, hquery⟩
    rw [hf] at hg
    cases hg
    exact Document.Query.mem_rows_ofFilter

/-- A document that a chain is met by passes the filter of the last test in it. -/
theorem holds_of_isMet_of_apply (hd : d.test? = some (field, o)) (h : b.apply d = .ok b')
    {query : Document.Query} (hquery : Document.Query.ofSpec σ b'.spec = .ok query) :
    ∃ f, Filter.ofOperator field false o = .ok f ∧
      ∀ doc, query.isMet doc = true → f.holds doc = true := by
  obtain ⟨call, c, hc, hwrite, _⟩ := exists_write_of_test? (σ := σ) hd
  obtain ⟨b₁, hb₁, hspec⟩ := hwrite h
  obtain ⟨_, p, hp, _, t, _, rfl⟩ := write_eq_ok.1 hb₁
  obtain ⟨s, hfilter⟩ := Document.Query.ofPredicate_of_ofSpec hquery
  rw [hspec] at hfilter
  obtain ⟨fs, hfs, hquery⟩ := bind_eq_ok.1 hfilter
  rcases t.mem_merge_path p hc with ⟨hn, hmem⟩ | ⟨k, u, hmem⟩
  · have hseg : IsSegment field := FieldPath.parse_not_isNested.1 ⟨p, hp, hn⟩
    obtain rfl := Except.ok.inj (hp.symm.trans (FieldPath.parse_segment hseg))
    obtain ⟨o', f, ho', hf, hmem⟩ := Filter.exists_mem_ofTree hfs hmem
    cases hc.symm.trans ho'
    refine ⟨f, hf, fun doc hmet => ?_⟩
    have hsome : fs.isEmpty = false := by
      cases fs with
      | nil => cases hmem
      | cons => rfl
    rw [hsome] at hquery
    rw [Document.Query.isMet, ← Except.ok.inj hquery] at hmet
    exact List.all_eq_true.1 ((Filter.holds_all doc fs).symm.trans hmet) f hmem
  · obtain ⟨_, _, ho', _⟩ := Filter.exists_mem_ofTree hfs hmem
    cases ho'

/-- The titles of articles can be tested. -/
theorem exists_new_articles :
    ∃ b₀ : Builder .articles, new .articles "Article" = .ok b₀ ∧ b₀.shape.table = "articles" ∧
      b₀.shape.HasPlain "title" := by
  obtain ⟨b₀, h₀, hshape⟩ :
      ∃ b₀, new .articles "Article" = .ok b₀ ∧
        (b₀.shape.table = "articles" ∧ (b₀.shape.field? "title").any (!·.isRelation) : Bool) :=
    exists_ok_of_any (by decide +kernel)
  exact ⟨b₀, h₀, by simpa [Shape.HasPlain, Option.any_eq_true] using hshape⟩

end Builder

end RowQuery
