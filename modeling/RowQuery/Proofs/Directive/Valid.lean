import RowQuery.Proofs.Directive.Effect

/-!
# Directives that are valid where they stand

Each directive is checked on its own against the shape of its scope, whatever stands before or after
it. Valid directives keep trees in the form that their shape asks for (`fits_conjoinAll`,
`fits_declareAll`).
-/

namespace RowQuery

/-- The path leads from the shape to a field that is no relation. -/
def Resolves (σ : Schema) (s : Shape) (path : String) : Prop :=
  ∃ p r, FieldPath.parse path = .ok p ∧ p.resolve σ s = .ok r

/-- The path consists of relations only and leads from the one shape to the other. -/
def LeadsTo (σ : Schema) (s : Shape) (relation : String) (t : Shape) : Prop :=
  ∃ p, FieldPath.parse relation = .ok p ∧ p.resolveRelations σ s = .ok t

/-- The path resolves if it is used, and a pattern is null or a scalar. -/
def Filter.Valid (σ : Schema) (s : Shape) (path : String) (f : Filter) : Prop :=
  (∀ kind ignoreCase vs, f ≠ .pattern kind ignoreCase (.list vs)) ∧
    (f.condition? ≠ .ok none → Resolves σ s path)

/-- Sort keys and selected fields are plain fields of the shape itself, chains of relations can be
followed, and page tokens can be read. -/
def Shaping.Valid (σ : Schema) (s : Shape) : Shaping → Prop
  | .sort _ field => IsSegment field ∧ s.HasPlain field
  | .select field => IsSegment field ∧ s.HasPlain field
  | .fetchRelation hops =>
    ∃ p t, FieldPath.ofHops hops = .ok p ∧ p.resolveRelations σ s = .ok t
  | .next token => Text.trim token.toList = [] ∨ ∃ c, Cursor.decode token = .ok c
  | .loadRelationIds | .cache _ | .limit _ => True

mutual

/-- The directive is valid on its own in a scope on the shape; its place among others is not looked
at. -/
def Directive.Valid (σ : Schema) (s : Shape) : Directive → Prop
  | .filter path f => f.Valid σ s path
  | .oneOf path _ => Resolves σ s path
  | .join relation ds => ∃ t, LeadsTo σ s relation t ∧ Directive.AllValid σ t ds
  | .or branches => Directive.BranchesValid σ s branches
  | .shape step => step.Valid σ s

def Directive.AllValid (σ : Schema) (s : Shape) : List Directive → Prop
  | [] => True
  | d :: ds => d.Valid σ s ∧ Directive.AllValid σ s ds

def Directive.BranchesValid (σ : Schema) (s : Shape) : List (List Directive) → Prop
  | [] => True
  | ds :: branches => Directive.AllValid σ s ds ∧ Directive.BranchesValid σ s branches

end

variable {σ : Schema} {s : Shape}

theorem Directive.allValid_iff {ds : List Directive} :
    Directive.AllValid σ s ds ↔ ∀ d ∈ ds, d.Valid σ s := by
  induction ds with
  | nil => simp [AllValid]
  | cons d ds ih => simp only [AllValid, ih, List.forall_mem_cons]

theorem Directive.branchesValid_iff {branches : List (List Directive)} :
    Directive.BranchesValid σ s branches ↔ ∀ ds ∈ branches, Directive.AllValid σ s ds := by
  induction branches with
  | nil => simp [BranchesValid]
  | cons ds branches ih => simp only [BranchesValid, ih, List.forall_mem_cons]

/-- Validity does not depend on which branches are chosen. -/
theorem Directive.allValid_of_mem_choices {ds run : List Directive} (hrun : run ∈ choices ds) :
    Directive.AllValid σ s ds → Directive.AllValid σ s run := by
  refine choices_induction ?nil ?cons ?or hrun
  case nil => exact id
  case cons => exact fun d ds run _ _ ih h => ⟨h.1, ih h.2⟩
  case or =>
    intro branches ds br run hbr _ ih h
    have hbranches : Directive.BranchesValid σ s branches := h.1
    exact ih (Directive.branchesValid_iff.1 hbranches br hbr)

/-! ### Filters -/

theorem Filter.condition?_eq_ok {f : Filter} :
    (∃ c, f.condition? = .ok c) ↔ ∀ kind ignoreCase vs, f ≠ .pattern kind ignoreCase (.list vs) := by
  cases f with
  | pattern kind ignoreCase v => cases v <;> simp [condition?, Value.isNull, Value.text?]
  | _ => simp [condition?]

theorem Filter.Valid.resolves {path : String} {f : Filter} (h : f.Valid σ s path) {c : Condition}
    (hc : f.added? = some c) : Resolves σ s path := by
  refine h.2 fun hnone => ?_
  rw [added?_of_condition? hnone] at hc
  cases hc

/-! ### Paths -/

/-- A path that resolves is a chain of relations with a plain field at its end. -/
theorem Resolves.exists_hasPlain {path : String} (h : Resolves σ s path) :
    ∃ ks k t, dotPieces path = ks ++ [k] ∧ (∀ l ∈ ks ++ [k], IsSegment l) ∧
      σ.follow? s ks = some t ∧ t.HasPlain k := by
  obtain ⟨p, ⟨t, f⟩, hp, hr⟩ := h
  obtain ⟨ht, hf⟩ := FieldPath.resolve_eq_ok.1 hr
  have hseg : ∀ l ∈ p.hops ++ [p.leaf], IsSegment l := p.segments_eq ▸ p.isSegment
  exact ⟨p.hops, p.leaf, t, by rw [← FieldPath.parse_eq_ok.1 hp, p.segments_eq], hseg, ht, f, hf⟩

/-- A path of relations is a chain with one more relation at its end. -/
theorem LeadsTo.exists_related {relation : String} {t : Shape} (h : LeadsTo σ s relation t) :
    ∃ ks k s', dotPieces relation = ks ++ [k] ∧ (∀ l ∈ ks ++ [k], IsSegment l) ∧
      σ.follow? s ks = some s' ∧ σ.related? s' k = some t := by
  obtain ⟨p, hp, hr⟩ := h
  have hfollow := FieldPath.resolveRelations_eq_ok.1 hr
  rw [p.segments_eq, Schema.follow?_append, Option.bind_eq_some_iff] at hfollow
  obtain ⟨s', hs', ht⟩ := hfollow
  have hseg : ∀ l ∈ p.hops ++ [p.leaf], IsSegment l := p.segments_eq ▸ p.isSegment
  refine ⟨p.hops, p.leaf, s', by rw [← FieldPath.parse_eq_ok.1 hp, p.segments_eq], hseg, hs', ?_⟩
  simpa using ht

theorem LeadsTo.follow? {relation : String} {t : Shape} (h : LeadsTo σ s relation t) :
    σ.follow? s (dotPieces relation) = some t := by
  obtain ⟨p, hp, hr⟩ := h
  rw [← FieldPath.parse_eq_ok.1 hp]
  exact FieldPath.resolveRelations_eq_ok.1 hr

/-! ### Conjunctions fit -/

theorem Resolves.fits_atPath {path : String} (h : Resolves σ s path) {c : Condition}
    (hc : c.isLeaf) : PredicateTree.Fits σ s (PredicateTree.atPath (dotPieces path) c) := by
  obtain ⟨ks, k, t, hpath, hseg, ht, hk⟩ := h.exists_hasPlain
  rw [hpath]
  exact PredicateTree.fits_atPath hseg ht ((Condition.fits_of_isLeaf hc).2 hk)

theorem LeadsTo.fits_atPath {relation : String} {t : Shape} (h : LeadsTo σ s relation t)
    {u : PredicateTree} (hu : PredicateTree.Fits σ t u) (hne : u ≠ []) :
    PredicateTree.Fits σ s (PredicateTree.atPath (dotPieces relation) (.nested u)) := by
  obtain ⟨ks, k, s', hpath, hseg, hs', hk⟩ := h.exists_related
  rw [hpath]
  exact PredicateTree.fits_atPath hseg hs' ⟨hne, t, hk, hu⟩

mutual

theorem Directive.Valid.fits_conjoin : {s : Shape} → {t : PredicateTree} → (d : Directive) →
    d.Valid σ s → PredicateTree.Fits σ s t → PredicateTree.Fits σ s (d.conjoin t)
  | s, t, .filter path f, h, ht => by
    rw [Directive.conjoin]
    cases hc : f.added? with
    | none => exact ht
    | some c =>
      have hr : Resolves σ s path := Filter.Valid.resolves h hc
      exact ht.merge (hr.fits_atPath (Filter.isLeaf_of_added? hc))
  | s, t, .oneOf path vs, h, ht => by
    have hr : Resolves σ s path := h
    have hleaf : (Condition.op (.oneOf vs)).isLeaf := trivial
    rw [Directive.conjoin]
    exact ht.merge (hr.fits_atPath hleaf)
  | s, t, .join relation ds, ⟨s', hs', hds⟩, ht => by
    rw [Directive.conjoin]
    split
    · exact ht
    · rename_i hempty
      have hu := fits_conjoinAll (t := []) ds hds trivial
      exact ht.merge (hs'.fits_atPath hu (by simpa using hempty))
  | _, _, .or _, _, ht => ht
  | _, _, .shape _, _, ht => ht

theorem fits_conjoinAll : {s : Shape} → {t : PredicateTree} → (ds : List Directive) →
    Directive.AllValid σ s ds → PredicateTree.Fits σ s t →
    PredicateTree.Fits σ s (t.conjoinAll ds)
  | _, _, [], _, ht => ht
  | _, _, d :: ds, ⟨hd, hds⟩, ht => fits_conjoinAll ds hds (Directive.Valid.fits_conjoin d hd ht)

end

/-- Every alternative of valid directives fits the shape. -/
theorem fits_of_mem_alternatives {t u : PredicateTree} {ds : List Directive}
    (hds : Directive.AllValid σ s ds) (ht : PredicateTree.Fits σ s t) (hu : u ∈ alternatives t ds) :
    PredicateTree.Fits σ s u := by
  rw [alternatives_eq_map] at hu
  obtain ⟨run, hrun, rfl⟩ := List.mem_map.1 hu
  exact fits_conjoinAll run (Directive.allValid_of_mem_choices hrun hds) ht

/-! ### Relations fit -/

namespace RelationTree

/-- The hops of a path that resolves are relations. -/
theorem Fits.declareHops {r : RelationTree} (hr : Fits σ s r) {path : String}
    (h : Resolves σ s path) : Fits σ s (r.merge (atPath (dotPieces path).dropLast .load)) := by
  obtain ⟨ks, k, t, hpath, _, ht, _⟩ := h.exists_hasPlain
  rw [hpath, List.dropLast_concat]
  exact hr.merge (fits_atPath ht trivial)

end RelationTree

theorem Shaping.Valid.fits_declared {step : Shaping} (h : step.Valid σ s) :
    RelationTree.Fits σ s step.declared := by
  cases step with
  | fetchRelation hops =>
    obtain ⟨p, t, hp, ht⟩ := h
    rw [declared, ← FieldPath.segments_of_ofHops hp]
    exact RelationTree.fits_atPath (FieldPath.resolveRelations_eq_ok.1 ht) trivial
  | _ => trivial

theorem RelationNode.Fits.above {t : RelationTree} (ht : RelationTree.Fits σ s t) :
    (RelationNode.above t).Fits σ s := by
  cases t with
  | nil => trivial
  | cons e t => exact ht

mutual

theorem Directive.Valid.fits_declare : {s : Shape} → {r : RelationTree} → (d : Directive) →
    d.Valid σ s → RelationTree.Fits σ s r → RelationTree.Fits σ s (d.declare r)
  | s, r, .filter path f, h, hr => by
    rw [Directive.declare]
    cases hc : f.added? with
    | none => exact hr
    | some c => exact hr.declareHops (Filter.Valid.resolves h hc)
  | s, r, .oneOf path vs, h, hr => by
    rw [Directive.declare]
    exact hr.declareHops h
  | s, r, .join relation ds, ⟨s', hs', hds⟩, hr => by
    have hbelow := fits_declareAll (r := []) ds hds trivial
    rw [Directive.declare]
    exact hr.merge (RelationTree.fits_atPath hs'.follow? (.above hbelow))
  | _, _, .or branches, h, hr => fits_declareBranches branches h hr
  | _, _, .shape _, h, hr => hr.merge h.fits_declared

theorem fits_declareAll : {s : Shape} → {r : RelationTree} → (ds : List Directive) →
    Directive.AllValid σ s ds → RelationTree.Fits σ s r → RelationTree.Fits σ s (r.declareAll ds)
  | _, _, [], _, hr => hr
  | _, _, d :: ds, ⟨hd, hds⟩, hr => fits_declareAll ds hds (Directive.Valid.fits_declare d hd hr)

theorem fits_declareBranches : {s : Shape} → {r : RelationTree} →
    (branches : List (List Directive)) → Directive.BranchesValid σ s branches →
    RelationTree.Fits σ s r → RelationTree.Fits σ s (r.declareBranches branches)
  | _, _, [], _, hr => hr
  | _, _, ds :: branches, ⟨hds, hbranches⟩, hr =>
    fits_declareBranches branches hbranches (hr.merge (fits_declareAll (r := []) ds hds trivial))

end

end RowQuery
