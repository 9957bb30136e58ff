import RowQuery.Proofs.Keyed
import RowQuery.Proofs.Path

/-!
# Resolving paths piece by piece

A path that goes on where another ends resolves from there, so a walk can be taken in pieces. In a
schema without dangling relations a path leads to a field, leads to an entity or leads nowhere, and
only one of these (`resolution_cases`); where it leads nowhere, the two forms of resolution
agree on the reason.
-/

namespace RowQuery

/-! ### Validated schemas -/

namespace Schema

variable {σ τ : Schema} {s : Shape}

/-- Every relation leads to a registered shape. -/
def Closed (σ : Schema) : Prop :=
  ∀ e ∈ σ.shapes, ∀ f ∈ e.2.fields, ∀ r, f.relation? = some r → (σ.shape? r.target).isSome

theorem dangling?_eq_none : σ.dangling? = none ↔ σ.Closed := by
  simp only [dangling?, Closed, List.findSome?_eq_none_iff, Option.bind_eq_none_iff]
  refine forall₂_congr fun e _ => forall₂_congr fun f _ => forall₂_congr fun r _ => ?_
  cases (σ.shape? r.target).isSome <;> simp

theorem validate_eq_ok : σ.validate = .ok τ ↔ τ = σ ∧ σ.Closed := by
  rw [← dangling?_eq_none, validate]
  cases σ.dangling? <;> simp [eq_comm]

/-- A relation of a registered shape can be followed. -/
theorem Closed.exists_shape (hσ : σ.Closed) (hs : σ.shape? s.name = some s) {name : String}
    {f : Field} (hf : s.field? name = some f) {r : Relation} (hr : f.relation? = some r) :
    ∃ t, σ.shape r.target = .ok t := by
  have hmem : (s.name, s) ∈ σ.shapes := Keyed.mem_of_find? hs
  obtain ⟨t, ht⟩ :=
    Option.isSome_iff_exists.1 (hσ _ hmem f (List.mem_of_find?_eq_some hf) r hr)
  exact ⟨t, shape_eq_ok.2 ht⟩

end Schema

namespace FieldPath

/-! ### Paths behind one another -/

/-- The path that goes on with `q` where `p` ends. -/
def append (p q : FieldPath) : FieldPath where
  segments := p.segments ++ q.segments
  ne_nil := List.append_ne_nil_of_left_ne_nil p.ne_nil _
  isSegment s hs := (List.mem_append.1 hs).elim (p.isSegment s) (q.isSegment s)

instance : Append FieldPath := ⟨append⟩

variable {σ : Schema} {s t : Shape} {p q : FieldPath}

theorem segments_append (p q : FieldPath) : (p ++ q).segments = p.segments ++ q.segments := rfl

theorem hops_append (p q : FieldPath) : (p ++ q).hops = p.segments ++ q.hops :=
  List.dropLast_append_of_ne_nil q.ne_nil

theorem leaf_append (p q : FieldPath) : (p ++ q).leaf = q.leaf :=
  List.getLast_append_of_ne_nil _ q.ne_nil

/-- The text of both pieces with a dot between them is read as the path through both. -/
theorem parse_append (p q : FieldPath) : parse (p.text ++ "." ++ q.text) = .ok (p ++ q) := by
  rw [parse_eq_ok, dotPieces_append_dot, text, text, dotPieces_joinDots p.ne_nil p.isSegment,
    dotPieces_joinDots q.ne_nil q.isSegment, segments_append]

theorem resolveRelations_append :
    (p ++ q).resolveRelations σ s = .ok t ↔
      ∃ m, p.resolveRelations σ s = .ok m ∧ q.resolveRelations σ m = .ok t := by
  simp only [resolveRelations_eq_ok, segments_append, Schema.follow?_append,
    Option.bind_eq_some_iff]

theorem resolve_append {x : Shape × Field} :
    (p ++ q).resolve σ s = .ok x ↔
      ∃ m, p.resolveRelations σ s = .ok m ∧ q.resolve σ m = .ok x := by
  obtain ⟨t, f⟩ := x
  simp only [resolveRelations_eq_ok, resolve_eq_ok, hops_append, leaf_append,
    Schema.follow?_append, Option.bind_eq_some_iff]
  constructor
  · rintro ⟨⟨m, hm, ht⟩, hf⟩
    exact ⟨m, hm, ht, hf⟩
  · rintro ⟨m, hm, ht, hf⟩
    exact ⟨⟨m, hm, ht⟩, hf⟩

/-! ### Where a path leads -/

theorem resolveRelations_eq_bind : p.resolveRelations σ s =
    p.hops.foldlM (p.step σ) s >>= fun t => p.step σ t p.leaf := by
  rw [resolveRelations, segments_eq, List.foldlM_append]
  simp only [List.foldlM_cons, List.foldlM_nil, bind_pure]

theorem resolve_of_foldlM_step (h : p.hops.foldlM (p.step σ) s = .ok t) :
    p.resolve σ s = (do
      let f ← t.requireField p.leaf
      refuseIf f.isRelation (.relationLeaf t.name p.leaf p.text)
      return (t, f)) := by
  rw [resolve, h]
  rfl

/-- A name on the way is no field, or a field that is no relation. -/
def Misstep (e : QueryError) : Prop :=
  (∃ entity field, e = .unknownField entity field) ∨
    ∃ entity field path, e = .notARelation entity field path

theorem Misstep.ne_unknownEntity {e : QueryError} (h : Misstep e) (name : String) :
    e ≠ .unknownEntity name := by
  rintro rfl
  rcases h with ⟨_, _, h⟩ | ⟨_, _, _, h⟩ <;> cases h

theorem Misstep.ne_invalidPath {e : QueryError} (h : Misstep e) (path : String) :
    e ≠ .invalidPath path := by
  rintro rfl
  rcases h with ⟨_, _, h⟩ | ⟨_, _, _, h⟩ <;> cases h

section Closed

variable (hσ : σ.Closed) (hs : σ.shape? s.name = some s)

include hσ hs

/-- A hop goes wrong at a name that is no field or no relation, and else leads on. -/
theorem step_cases (p : FieldPath) (hop : String) :
    (s.requireField hop = .error (.unknownField s.name hop) ∧
      p.step σ s hop = .error (.unknownField s.name hop)) ∨
    (∃ f, s.requireField hop = .ok f ∧ f.isRelation = false ∧
      p.step σ s hop = .error (.notARelation s.name hop p.text)) ∨
    ∃ f t, s.requireField hop = .ok f ∧ f.isRelation = true ∧ p.step σ s hop = .ok t := by
  cases hf : s.field? hop with
  | none =>
    have hrequire : s.requireField hop = .error (.unknownField s.name hop) := by
      simp only [Shape.requireField, hf]
    refine .inl ⟨hrequire, ?_⟩
    rw [step, hrequire]
    rfl
  | some f =>
    have hrequire : s.requireField hop = .ok f := Shape.requireField_eq_ok.2 hf
    cases hr : f.relation? with
    | none =>
      refine .inr (.inl ⟨f, hrequire, by rw [Field.isRelation, hr]; rfl, ?_⟩)
      simp only [step, hrequire, bind, Except.bind, hr]
      rfl
    | some r =>
      obtain ⟨t, ht⟩ := hσ.exists_shape hs hf hr
      refine .inr (.inr ⟨f, t, hrequire, by rw [Field.isRelation, hr]; rfl, ?_⟩)
      rw [step_eq_ok, Schema.related?_eq_some]
      exact ⟨f, r, hf, hr, Schema.shape_eq_ok.1 ht⟩

/-- A walk goes wrong at one of its hops. -/
theorem misstep_of_foldlM_step {hops : List String} {e : QueryError}
    (h : hops.foldlM (p.step σ) s = .error e) : Misstep e := by
  induction hops generalizing s with
  | nil => cases h
  | cons hop hops ih =>
    rw [List.foldlM_cons] at h
    rcases step_cases hσ hs p hop with ⟨_, hstep⟩ | ⟨_, _, _, hstep⟩ | ⟨_, t, _, _, hstep⟩
    · rw [hstep] at h
      cases h
      exact .inl ⟨_, _, rfl⟩
    · rw [hstep] at h
      cases h
      exact .inr ⟨_, _, _, rfl⟩
    · rw [hstep] at h
      exact ih (registered_of_step hstep) h

/-- A path goes wrong on its way in the same manner for both forms, or it ends on a plain field, or
on a relation. -/
theorem resolution_cases (p : FieldPath) :
    (∃ e, Misstep e ∧ p.resolve σ s = .error e ∧ p.resolveRelations σ s = .error e) ∨
    (∃ (t : Shape) (f : Field), p.resolve σ s = .ok (t, f) ∧
      p.resolveRelations σ s = .error (.notARelation t.name p.leaf p.text)) ∨
    ∃ t m : Shape, p.resolve σ s = .error (.relationLeaf t.name p.leaf p.text) ∧
      p.resolveRelations σ s = .ok m := by
  cases hwalk : p.hops.foldlM (p.step σ) s with
  | error e =>
    refine .inl ⟨e, misstep_of_foldlM_step hσ hs hwalk, ?_, ?_⟩
    · rw [resolve, hwalk]
      rfl
    · rw [resolveRelations_eq_bind, hwalk]
      rfl
  | ok t =>
    have ht : σ.shape? t.name = some t := registered_of_foldlM_step hs hwalk
    have hrelations : p.resolveRelations σ s = p.step σ t p.leaf := by
      rw [resolveRelations_eq_bind, hwalk]
      rfl
    rw [hrelations]
    rcases step_cases hσ ht p p.leaf with
      ⟨hf, hstep⟩ | ⟨f, hf, hplain, hstep⟩ | ⟨f, m, hf, hrelation, hstep⟩
    · refine .inl ⟨_, .inl ⟨_, _, rfl⟩, ?_, hstep⟩
      rw [resolve_of_foldlM_step hwalk, hf]
      rfl
    · refine .inr (.inl ⟨t, f, resolve_eq_ok.2 ⟨?_, ?_, hplain⟩, hstep⟩)
      · exact foldlM_step_eq_ok.1 hwalk
      · exact Shape.requireField_eq_ok.1 hf
    · refine .inr (.inr ⟨t, m, ?_, hstep⟩)
      rw [resolve_of_foldlM_step hwalk, hf]
      simp [bind, Except.bind, refuseIf, hrelation]

variable (σ s p) in
/-- What the two forms of resolution say about one path. -/
structure EndsApart : Prop where
  exclusive : ∀ x t, p.resolve σ s = .ok x → p.resolveRelations σ s ≠ .ok t
  /-- Where the path leads to neither, both forms give the same reason. -/
  lost : ∀ e e', p.resolve σ s = .error e → p.resolveRelations σ s = .error e' → e = e'
  onRelation : ∀ e t, p.resolve σ s = .error e → p.resolveRelations σ s = .ok t →
    ∃ owner, e = .relationLeaf owner p.leaf p.text
  onField : ∀ x e, p.resolve σ s = .ok x → p.resolveRelations σ s = .error e →
    e = .notARelation x.1.name p.leaf p.text
  known : ∀ e, p.resolve σ s = .error e ∨ p.resolveRelations σ s = .error e →
    (∀ name, e ≠ .unknownEntity name) ∧ ∀ path, e ≠ .invalidPath path

theorem endsApart (p : FieldPath) : p.EndsApart σ s := by
  rcases resolution_cases hσ hs p with
    ⟨e₀, hmisstep, hfield, hrelation⟩ | ⟨t₀, f, hfield, hrelation⟩ | ⟨t₀, m, hfield, hrelation⟩
  · refine ⟨?_, ?_, ?_, ?_, ?_⟩
    · intro x t hx
      cases hfield.symm.trans hx
    · intro e e' he he'
      cases hfield.symm.trans he
      cases hrelation.symm.trans he'
      rfl
    · intro e t _ ht
      cases hrelation.symm.trans ht
    · intro x e hx
      cases hfield.symm.trans hx
    · intro e he
      obtain rfl : e₀ = e := by
        rcases he with he | he
        · exact Except.error.inj (hfield.symm.trans he)
        · exact Except.error.inj (hrelation.symm.trans he)
      exact ⟨hmisstep.ne_unknownEntity, hmisstep.ne_invalidPath⟩
  · refine ⟨?_, ?_, ?_, ?_, ?_⟩
    · intro x t _ ht
      cases hrelation.symm.trans ht
    · intro e e' he
      cases hfield.symm.trans he
    · intro e t he
      cases hfield.symm.trans he
    · intro x e hx he
      cases hfield.symm.trans hx
      cases hrelation.symm.trans he
      rfl
    · rintro e (he | he)
      · cases hfield.symm.trans he
      · cases hrelation.symm.trans he
        exact ⟨nofun, nofun⟩
  · refine ⟨?_, ?_, ?_, ?_, ?_⟩
    · intro x t hx
      cases hfield.symm.trans hx
    · intro e e' _ he'
      cases hrelation.symm.trans he'
    · intro e t he _
      cases hfield.symm.trans he
      exact ⟨_, rfl⟩
    · intro x e hx
      cases hfield.symm.trans hx
    · rintro e (he | he)
      · cases hfield.symm.trans he
        exact ⟨nofun, nofun⟩
      · cases hrelation.symm.trans he

end Closed

/-- Two texts with a dot between them are read as the path through both pieces. It resolves where the
first leads to an entity from which the second resolves, and no path of a validated schema leads
both to a field and to an entity. -/
theorem resolution_laws (hσ : σ.validate = .ok σ) {entity : String}
    (hs : σ.shape? entity = some s) (p q : FieldPath) :
    parse (p.text ++ "." ++ q.text) = .ok (p ++ q) ∧
    (∀ t, (p ++ q).resolveRelations σ s = .ok t ↔
      ∃ m, p.resolveRelations σ s = .ok m ∧ q.resolveRelations σ m = .ok t) ∧
    (∀ x, (p ++ q).resolve σ s = .ok x ↔
      ∃ m, p.resolveRelations σ s = .ok m ∧ q.resolve σ m = .ok x) ∧
    p.EndsApart σ s := by
  have hclosed : σ.Closed := (Schema.validate_eq_ok.1 hσ).2
  have hregistered : σ.shape? s.name = some s := Schema.shape?_name hs
  refine ⟨parse_append p q, ?_, ?_, endsApart hclosed hregistered p⟩
  · intro t
    exact resolveRelations_append
  · intro x
    exact resolve_append

/-- The team of an author of an article: the path through both pieces leads to an entity, so it is
no field. -/
theorem resolution_laws_articles :
    ∃ (s m t : Shape) (p q : FieldPath) (e : QueryError),
      Schema.articles.validate = .ok .articles ∧ Schema.articles.shape? "Article" = some s ∧
      p.text = "author" ∧ q.text = "team" ∧ m.name = "Author" ∧ t.name = "Team" ∧
      p.resolveRelations .articles s = .ok m ∧ q.resolveRelations .articles m = .ok t ∧
      (p ++ q).resolveRelations .articles s = .ok t ∧
      (p ++ q).resolve .articles s = .error e ∧
      ∃ owner, e = .relationLeaf owner "team" "author.team" := by
  have hvalid : Schema.articles.validate = .ok .articles := by
    have hnone : Schema.articles.dangling? = none := by decide +kernel
    rw [Schema.validate, hnone]
  let p : FieldPath := ofSegment (k := "author") (by decide)
  let q : FieldPath := ofSegment (k := "team") (by decide)
  have hrun : (do
      let s ← Schema.articles.shape "Article"
      let m ← p.resolveRelations .articles s
      return (s, m, ← q.resolveRelations .articles m) :
      Except QueryError (Shape × Shape × Shape)).toOption.any (fun x =>
        x.2.1.name = "Author" ∧ x.2.2.name = "Team") = true := by
    decide +kernel
  obtain ⟨⟨s, m, t⟩, h, hx⟩ := exists_ok_of_any hrun
  obtain ⟨hauthor, hteam⟩ := of_decide_eq_true hx
  obtain ⟨_, hs, h⟩ := bind_eq_ok.1 h
  obtain ⟨_, hp, h⟩ := bind_eq_ok.1 h
  obtain ⟨_, hq, h⟩ := bind_eq_ok.1 h
  cases h
  have hs := Schema.shape_eq_ok.1 hs
  obtain ⟨_, hrelations, _⟩ := resolution_laws hvalid hs p q
  have hboth := (hrelations t).2 ⟨m, hp, hq⟩
  obtain ⟨_, _, _, hends⟩ := resolution_laws hvalid hs (p ++ q) q
  obtain ⟨e, he⟩ : ∃ e, (p ++ q).resolve .articles s = .error e := by
    cases hfield : (p ++ q).resolve .articles s with
    | error e => exact ⟨e, rfl⟩
    | ok x => exact absurd hboth (hends.exclusive x t hfield)
  exact ⟨s, m, t, p, q, e, hvalid, hs, by decide, by decide, hauthor, hteam, hp, hq, hboth, he,
    hends.onRelation e t he hboth⟩

end FieldPath

end RowQuery
