import RowQuery.Proofs.Directive.Chains
import RowQuery.Proofs.Directive.Leaves
import RowQuery.Proofs.Directive.Level

/-!
# Joins and dotted paths

What a join says on a related entity can be said from the entity itself, with the relation and a dot
before every path. Such directives are valid where those inside the join are (`allValid_under`), and
they write the same conditions and name the same chains below the relation (`writesAll_under`,
`chainsAll_under`).
-/

namespace RowQuery

/-! ### Chains of relations -/

/-- The segments can be followed from the one shape to the other. -/
def Chain (σ : Schema) (s : Shape) (ks : List String) (t : Shape) : Prop :=
  (∀ k ∈ ks, IsSegment k) ∧ σ.follow? s ks = some t

section Chain

variable {σ : Schema} {s t u : Shape} {ks ls : List String} {relation : String}

theorem Chain.unique (h : Chain σ s ks t) (h' : Chain σ s ks u) : t = u :=
  Option.some.inj (h.2.symm.trans h'.2)

/-- Behind a chain the walk goes on from its end. -/
theorem Chain.append_iff (h : Chain σ s ks t) : Chain σ s (ks ++ ls) u ↔ Chain σ t ls u := by
  rw [Chain, Chain, List.forall_mem_append, Schema.follow?_append, h.2, Option.bind_some,
    and_iff_right h.1]

theorem leadsTo_iff : LeadsTo σ s relation t ↔ Chain σ s (dotPieces relation) t := by
  constructor
  · rintro ⟨p, hp, ht⟩
    rw [← FieldPath.parse_eq_ok.1 hp]
    exact ⟨p.isSegment, FieldPath.resolveRelations_eq_ok.1 ht⟩
  · rintro ⟨hseg, ht⟩
    exact ⟨⟨dotPieces relation, dotPieces_ne_nil relation, hseg⟩, FieldPath.parse_eq_ok.2 rfl,
      FieldPath.resolveRelations_eq_ok.2 ht⟩

theorem resolves_iff {path : String} :
    Resolves σ s path ↔ ∃ ks k t, dotPieces path = ks ++ [k] ∧ IsSegment k ∧ Chain σ s ks t ∧
      t.HasPlain k := by
  constructor
  · intro h
    obtain ⟨ks, k, t, hpath, hseg, ht, hk⟩ := h.exists_hasPlain
    obtain ⟨hks, hseg⟩ := List.forall_mem_append.1 hseg
    exact ⟨ks, k, t, hpath, hseg k (.head _), ⟨hks, ht⟩, hk⟩
  · rintro ⟨ks, k, t, hpath, hseg, ⟨hks, ht⟩, f, hf, hr⟩
    have hsegments : ∀ l ∈ ks ++ [k], IsSegment l :=
      List.forall_mem_append.2 ⟨hks, List.forall_mem_singleton.2 hseg⟩
    let p : FieldPath := ⟨ks ++ [k], by simp, hsegments⟩
    have hhops : p.hops = ks := List.dropLast_concat
    have hleaf : p.leaf = k := List.getLast_concat
    refine ⟨p, (t, f), FieldPath.parse_eq_ok.2 hpath.symm, FieldPath.resolve_eq_ok.2 ?_⟩
    rw [hhops, hleaf]
    exact ⟨ht, hf, hr⟩

theorem valid_fetchRelation_iff {hops : List String} (hne : hops ≠ []) :
    (Shaping.fetchRelation hops).Valid σ s ↔ ∃ t, Chain σ s (hops.flatMap dotPieces) t := by
  have hpieces : hops.flatMap dotPieces ≠ [] := by
    intro hnil
    obtain ⟨hop, hmem⟩ := List.exists_mem_of_ne_nil hops hne
    exact dotPieces_ne_nil hop (List.flatMap_eq_nil_iff.1 hnil hop hmem)
  constructor
  · rintro ⟨p, t, hp, ht⟩
    rw [← FieldPath.segments_of_ofHops hp]
    exact ⟨t, p.isSegment, FieldPath.resolveRelations_eq_ok.1 ht⟩
  · rintro ⟨t, hseg, ht⟩
    exact ⟨⟨_, hpieces, hseg⟩, t, FieldPath.ofHops_eq_ok.2 rfl,
      FieldPath.resolveRelations_eq_ok.2 ht⟩

end Chain

/-! ### Dots instead of a join -/

/-- The text of a path behind a relation. -/
def dotted (relation path : String) : String := relation ++ "." ++ path

theorem dotPieces_dotted (relation path : String) :
    dotPieces (dotted relation path) = dotPieces relation ++ dotPieces path :=
  dotPieces_append_dot relation path

/-- The directive with a relation before its path. The list of a join stays as it is, for its paths
go on from the relation of the join. -/
def Directive.under (relation : String) : Directive → Directive
  | .filter path f => .filter (dotted relation path) f
  | .oneOf path vs => .oneOf (dotted relation path) vs
  | .join path ds => .join (dotted relation path) ds
  | .shape (.fetchRelation (hop :: hops)) => .shape (.fetchRelation (dotted relation hop :: hops))
  | d => d

/-- The directives that can be said with dots as well: filters, relations that are fetched, and
joins of such directives. -/
inductive Directive.Movable : Directive → Prop
  | filter (path : String) (f : Filter) : Movable (.filter path f)
  | fetch (hop : String) (hops : List String) : Movable (.shape (.fetchRelation (hop :: hops)))
  | join (relation : String) {ds : List Directive} (hds : ∀ d ∈ ds, Movable d) :
    Movable (.join relation ds)

namespace Directive.Movable

variable {d : Directive} (hd : d.Movable)
include hd

theorem under (relation : String) : (d.under relation).Movable := by
  cases hd with
  | filter path f => exact .filter _ f
  | fetch hop hops => exact .fetch _ hops
  | join path hds => exact .join _ hds

theorem isClosing : d.isClosing = false := by
  cases hd <;> rfl

theorem isOr : d.isOr = false := by
  cases hd <;> rfl

theorem placed (p : Place) : d.Placed p := by
  cases hd <;> trivial

end Directive.Movable

section Lists

variable {ds : List Directive} (hds : ∀ d ∈ ds, d.Movable)
include hds

theorem forall_movable_map_under (relation : String) :
    ∀ d ∈ ds.map (Directive.under relation), d.Movable := by
  intro d hd
  obtain ⟨d', hd', rfl⟩ := List.mem_map.1 hd
  exact (hds d' hd').under relation

theorem wellPlaced_of_movable (p : Place) : WellPlaced p ds where
  placed d hd := (hds d hd).placed p
  order := List.pairwise_of_forall_mem_list fun d hd _ _ hc => by
    rw [(hds d hd).isClosing] at hc
    cases hc

end Lists

theorem Directive.Movable.inside {d : Directive} (hd : d.Movable) : d.Inside := by
  induction hd with
  | filter path f => trivial
  | fetch hop hops => trivial
  | join relation hds ih => exact disciplined_iff.2 ⟨wellPlaced_of_movable hds .join, ih⟩

/-- Lists of such directives may stand anywhere. -/
theorem disciplined_of_movable {ds : List Directive} (hds : ∀ d ∈ ds, d.Movable) (p : Place) :
    Disciplined p ds :=
  disciplined_iff.2 ⟨wellPlaced_of_movable hds p, fun d hd => (hds d hd).inside⟩

/-! ### The same from further up -/

section Under

variable {σ : Schema} {s t : Shape} {relation : String}

section Valid

variable (hr : LeadsTo σ s relation t)
include hr

theorem leadsTo_dotted_iff {path : String} {u : Shape} :
    LeadsTo σ s (dotted relation path) u ↔ LeadsTo σ t path u := by
  rw [leadsTo_iff, leadsTo_iff, dotPieces_dotted, (leadsTo_iff.1 hr).append_iff]

theorem resolves_dotted_iff {path : String} :
    Resolves σ s (dotted relation path) ↔ Resolves σ t path := by
  have hchain := leadsTo_iff.1 hr
  rw [resolves_iff, resolves_iff, dotPieces_dotted]
  constructor
  · rintro ⟨ks, k, u, hpath, hk, hks, hplain⟩
    -- the last piece belongs to the path behind the dot, since that has at least one
    have hdrop := congrArg List.dropLast hpath
    have hlast := List.dropLast_concat_getLast (dotPieces_ne_nil path)
    rw [List.dropLast_append_of_ne_nil (dotPieces_ne_nil path), List.dropLast_concat] at hdrop
    rw [← hlast, ← List.append_assoc, hdrop] at hpath
    obtain ⟨_, hleaf⟩ := List.append_inj' hpath rfl
    rw [← hdrop, hchain.append_iff] at hks
    exact ⟨(dotPieces path).dropLast, k, u, by rw [← hleaf, hlast], hk, hks, hplain⟩
  · rintro ⟨ks, k, u, hpath, hk, hks, hplain⟩
    refine ⟨dotPieces relation ++ ks, k, u, ?_, hk, hchain.append_iff.2 hks, hplain⟩
    rw [hpath, List.append_assoc]

theorem Directive.valid_under {d : Directive} (hd : d.Movable) :
    (d.under relation).Valid σ s ↔ d.Valid σ t := by
  cases hd with
  | filter path f =>
    exact and_congr_right fun _ => imp_congr_right fun _ => resolves_dotted_iff hr
  | fetch hop hops =>
    show (Shaping.fetchRelation _).Valid σ s ↔ (Shaping.fetchRelation _).Valid σ t
    rw [valid_fetchRelation_iff (List.cons_ne_nil _ _),
      valid_fetchRelation_iff (List.cons_ne_nil _ _), List.flatMap_cons, List.flatMap_cons,
      dotPieces_dotted, List.append_assoc]
    exact exists_congr fun u => (leadsTo_iff.1 hr).append_iff
  | join path hds =>
    exact exists_congr fun u => and_congr_left fun _ => leadsTo_dotted_iff hr

theorem allValid_under {ds : List Directive} (hds : ∀ d ∈ ds, d.Movable) :
    Directive.AllValid σ s (ds.map (Directive.under relation)) ↔ Directive.AllValid σ t ds := by
  rw [Directive.allValid_iff, Directive.allValid_iff, List.forall_mem_map]
  exact forall₂_congr fun d hd => Directive.valid_under hr (hds d hd)

end Valid

theorem Directive.writes_under {d : Directive} (hd : d.Movable) :
    (d.under relation).writes = d.writes.map fun w => (dotPieces relation ++ w.1, w.2) := by
  cases hd with
  | filter path f =>
    rw [under, writes, writes, dotPieces_dotted]
    cases f.added? <;> rfl
  | fetch hop hops => rfl
  | join path hds =>
    rw [under, writes, writes, dotPieces_dotted, List.map_map]
    simp only [Function.comp_def, List.append_assoc]

theorem writesAll_under {ds : List Directive} (hds : ∀ d ∈ ds, d.Movable) :
    writesAll (ds.map (Directive.under relation)) =
      (writesAll ds).map fun w => (dotPieces relation ++ w.1, w.2) := by
  induction ds with
  | nil => rfl
  | cons d ds ih =>
    obtain ⟨hd, hds⟩ := List.forall_mem_cons.1 hds
    rw [List.map_cons, writesAll, writesAll, List.map_append, Directive.writes_under hd, ih hds]

theorem Directive.chains_under {d : Directive} (hd : d.Movable) :
    (d.under relation).chains = d.chains.map (dotPieces relation ++ ·) := by
  cases hd with
  | filter path f =>
    rw [under, chains, chains, dotPieces_dotted,
      List.dropLast_append_of_ne_nil (dotPieces_ne_nil path)]
    cases f.added? <;> rfl
  | fetch hop hops =>
    rw [under, chains, chains, List.flatMap_cons, List.flatMap_cons, dotPieces_dotted,
      List.append_assoc]
    rfl
  | join path hds =>
    rw [under, chains, chains, dotPieces_dotted, List.map_cons, List.map_map]
    simp only [Function.comp_def, List.append_assoc]

theorem chainsAll_under {ds : List Directive} (hds : ∀ d ∈ ds, d.Movable) :
    chainsAll (ds.map (Directive.under relation)) =
      (chainsAll ds).map (dotPieces relation ++ ·) := by
  induction ds with
  | nil => rfl
  | cons d ds ih =>
    obtain ⟨hd, hds⟩ := List.forall_mem_cons.1 hds
    rw [List.map_cons, chainsAll, chainsAll, List.map_append, Directive.chains_under hd, ih hds]

/-! ### The whole join -/

/-- A join said with dots: the relation is fetched, and stands before every path. -/
def Directive.joinDotted (relation : String) (ds : List Directive) : List Directive :=
  .shape (.fetchRelation [relation]) :: ds.map (Directive.under relation)

/-- The conditions inside a join are valid where its relation leads to, and nowhere else. -/
theorem Directive.valid_join_iff (hr : LeadsTo σ s relation t) {ds : List Directive} :
    (Directive.join relation ds).Valid σ s ↔ Directive.AllValid σ t ds := by
  constructor
  · rintro ⟨u, hu, hds⟩
    rwa [(leadsTo_iff.1 hr).unique (leadsTo_iff.1 hu)]
  · exact fun hds => ⟨t, hr, hds⟩

section JoinDotted

variable {ds : List Directive} (hds : ∀ d ∈ ds, d.Movable)
include hds

theorem forall_movable_joinDotted : ∀ d ∈ Directive.joinDotted relation ds, d.Movable :=
  List.forall_mem_cons.2 ⟨.fetch relation [], forall_movable_map_under hds relation⟩

theorem allValid_joinDotted_iff (hr : LeadsTo σ s relation t) :
    Directive.AllValid σ s (Directive.joinDotted relation ds) ↔ Directive.AllValid σ t ds := by
  have hfetch : (Shaping.fetchRelation [relation]).Valid σ s := by
    rw [valid_fetchRelation_iff (List.cons_ne_nil _ _), List.flatMap_singleton]
    exact ⟨t, leadsTo_iff.1 hr⟩
  rw [← allValid_under hr hds]
  exact and_iff_right hfetch

theorem writesAll_joinDotted :
    writesAll (Directive.joinDotted relation ds) = (Directive.join relation ds).writes :=
  writesAll_under hds

theorem chainsAll_joinDotted :
    chainsAll (Directive.joinDotted relation ds) = (Directive.join relation ds).chains := by
  rw [Directive.joinDotted, chainsAll, chainsAll_under hds, Directive.chains, Directive.chains,
    List.flatMap_singleton]
  rfl

end JoinDotted

end Under

end RowQuery
