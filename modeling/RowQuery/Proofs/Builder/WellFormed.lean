import RowQuery.Proofs.Builder.Reachable
import RowQuery.Proofs.Builder.Translation
import RowQuery.Proofs.Tree.Paths

/-!
# What holds of every builder

Whatever calls lead to a builder, its trees fit the shape that it stands on, and the fields it
selects and sorts by are plain fields of that shape (`Reachable.wellFormed`).
-/

namespace RowQuery

/-! ### Selected names -/

/-- Names are put in in their order, each once. -/
theorem pairwise_insertName {names : List String} (h : names.Pairwise (· < ·)) (field : String) :
    (insertName field names).Pairwise (· < ·) := by
  induction names with
  | nil => exact List.pairwise_singleton _ _
  | cons n names ih =>
    obtain ⟨hn, hnames⟩ := List.pairwise_cons.1 h
    unfold insertName
    by_cases hlt : field < n
    · rw [if_pos hlt]
      refine List.pairwise_cons.2 ⟨fun k hk => ?_, h⟩
      rcases List.mem_cons.1 hk with rfl | hk
      · exact hlt
      · exact String.lt_trans hlt (hn k hk)
    · rw [if_neg hlt]
      by_cases heq : field = n
      · rw [if_pos heq]
        exact h
      · rw [if_neg heq]
        refine List.pairwise_cons.2 ⟨fun k hk => ?_, ih hnames⟩
        rcases mem_insertName hk with rfl | hk
        · exact Std.lt_of_le_of_ne (String.not_lt.1 hlt) (Ne.symm heq)
        · exact hn k hk

/-! ### Declared relations -/

namespace RelationTree

/-- The tree declares chains of relations from the shape, in the order of their names. -/
structure WellFormed (σ : Schema) (s : Shape) (t : RelationTree) : Prop where
  fits : Fits σ s t
  ordered : Ordered t
  segmented : Segmented t

variable {σ : Schema} {s : Shape} {t u : RelationTree}

theorem wellFormed_nil : WellFormed σ s [] := ⟨trivial, ordered_nil, segmented_nil⟩

theorem WellFormed.merge (ht : WellFormed σ s t) (hu : WellFormed σ s u) :
    WellFormed σ s (t.merge u) :=
  ⟨ht.fits.merge hu.fits, ht.ordered.merge hu.ordered, ht.segmented.merge hu.segmented hu.ordered⟩

theorem WellFormed.foldl_merge {α : Type} {tree : α → RelationTree} {as : List α}
    (ht : WellFormed σ s t) (has : ∀ a ∈ as, WellFormed σ s (tree a)) :
    WellFormed σ s (as.foldl (fun r a => r.merge (tree a)) t) := by
  induction as generalizing t with
  | nil => exact ht
  | cons a as ih =>
    obtain ⟨ha, has⟩ := List.forall_mem_cons.1 has
    exact ih (ht.merge ha) has

/-- A declared chain can be followed from the shape. -/
theorem Fits.exists_follow? {ks : List String} (ht : Fits σ s t)
    (h : containsPath ks t = true) : ∃ s', σ.follow? s ks = some s' := by
  induction ks generalizing s t with
  | nil => exact ⟨s, rfl⟩
  | cons k ks ih =>
    rw [containsPath_cons] at h
    cases hn : Keyed.find? k t with
    | none =>
      rw [hn] at h
      cases h
    | some n =>
      rw [hn] at h
      obtain ⟨s', hs', hfits⟩ := fits_iff.1 ht _ (Keyed.mem_of_find? hn)
      have hrest : ∃ s'', σ.follow? s' ks = some s'' := by
        cases n with
        | load =>
          have hnil : ks = [] := List.isEmpty_iff.1 h
          rw [hnil]
          exact ⟨s', rfl⟩
        | nested u => exact ih hfits h
      obtain ⟨s'', hs''⟩ := hrest
      refine ⟨s'', ?_⟩
      rw [Schema.follow?_cons, hs', Option.bind_some, hs'']

section AtPath

variable {ks : List String} {s' : Shape} (hs' : σ.follow? s ks = some s')
  (hks : ∀ k ∈ ks, IsSegment k)

include hs' hks

theorem wellFormed_chain : WellFormed σ s (atPath ks .load) := by
  refine ⟨fits_atPath hs' trivial, ordered_atPath_load ks, segmented_atPath ?_ hks⟩
  intro ls hls
  rw [List.isEmpty_iff.1 hls]
  exact List.forall_mem_nil _

/-- What is declared at the end of a chain may be put below it. -/
theorem WellFormed.below (ht : WellFormed σ s' t) : WellFormed σ s (atPath ks (.above t)) := by
  refine ⟨fits_atPath hs' (.above ht.fits), ordered_atPath (.above ht.ordered) ks,
    segmented_atPath ?_ hks⟩
  intro ls hls
  rw [contains_above] at hls
  exact ht.segmented ls hls

end AtPath

end RelationTree

/-! ### Steps -/

namespace Builder

variable {σ : Schema} {b b' : Builder σ}

/-- The parts of the specification fit the shape of the builder. -/
structure WellFormed (b : Builder σ) : Prop where
  entity : σ.shape? b.spec.entity = some b.shape
  alternatives : ∀ t ∈ b.spec.predicate.alternatives, PredicateTree.Fits σ b.shape t
  relations : RelationTree.WellFormed σ b.shape b.spec.relations
  names : b.NamesFields
  segments : ∀ k ∈ b.spec.selection, IsSegment k
  increasing : b.spec.selection.Pairwise (· < ·)

namespace WellFormed

theorem start {s : Shape} (h : σ.shape? s.name = some s) (scope : Scope) :
    (start s h scope).WellFormed where
  entity := h
  alternatives t ht := by
    rw [List.mem_singleton.1 ht]
    exact PredicateTree.fits_nil
  relations := RelationTree.wellFormed_nil
  names := ⟨nofun, nofun⟩
  segments := nofun
  increasing := .nil

theorem fits_of_predicate (h : b.WellFormed) {t : PredicateTree} (ht : b.spec.predicate = .all t) :
    PredicateTree.Fits σ b.shape t :=
  h.alternatives t (by simp [ht, Predicate.alternatives])

theorem withTree (h : b.WellFormed) {t : PredicateTree} (ht : PredicateTree.Fits σ b.shape t) :
    (b.withTree t).WellFormed := by
  refine ⟨h.entity, fun u hu => ?_, h.relations, ⟨h.names.selection, h.names.order⟩, h.segments,
    h.increasing⟩
  rw [List.mem_singleton.1 hu]
  exact ht

theorem declare (h : b.WellFormed) {r : RelationTree} (hr : r.WellFormed σ b.shape) :
    (b.declare r).WellFormed :=
  ⟨h.entity, h.alternatives, h.relations.merge hr, ⟨h.names.selection, h.names.order⟩, h.segments,
    h.increasing⟩

/-- The stage has no part in it. -/
theorem close (h : b.WellFormed) (terminal : Closing) : (b.close terminal).WellFormed :=
  ⟨h.entity, h.alternatives, h.relations, ⟨h.names.selection, h.names.order⟩, h.segments,
    h.increasing⟩

theorem write (h : b.WellFormed) {call : Call} {raw : String} {c : Condition} (hc : c.isLeaf)
    (hw : b.write call raw c = .ok b') : b'.WellFormed := by
  obtain ⟨_, p, _, ⟨⟨s, f⟩, hr⟩, t, ht, rfl⟩ := write_eq_ok.1 hw
  obtain ⟨hs, hf⟩ := FieldPath.resolve_eq_ok.1 hr
  have hhops : (b.declare (.atPath p.hops .load)).WellFormed :=
    h.declare (RelationTree.wellFormed_chain hs fun _ => FieldPath.isSegment_hops)
  have hnew : PredicateTree.Fits σ b.shape (p.predicate c) := by
    rw [FieldPath.predicate, p.segments_eq]
    refine PredicateTree.fits_atPath ?_ hs ((Condition.fits_of_isLeaf hc).2 ⟨f, hf⟩)
    exact p.segments_eq ▸ p.isSegment
  exact hhops.withTree ((h.fits_of_predicate ht).merge hnew)

theorem join (h : b.WellFormed) {sub : Builder σ} (hsub : sub.WellFormed) {p : FieldPath}
    (hj : b.join p sub = .ok b') : b'.WellFormed := by
  obtain ⟨_, hr, _, u, hu, hb'⟩ := join_eq_ok.1 hj
  have hfollow := FieldPath.resolveRelations_eq_ok.1 hr
  have hdeclared : (b.declare (p.declarationWith (.above sub.spec.relations))).WellFormed :=
    h.declare (hsub.relations.below hfollow p.isSegment)
  obtain ⟨_, rfl⟩ | ⟨hne, t, ht, rfl⟩ := hb'
  · exact hdeclared
  · rw [p.segments_eq, Schema.follow?_append, Option.bind_eq_some_iff] at hfollow
    obtain ⟨s, hs, hlast⟩ := hfollow
    have hrelated : σ.related? s p.leaf = some sub.shape := by simpa using hlast
    have hnew : PredicateTree.Fits σ b.shape (p.predicate (.nested u)) := by
      rw [FieldPath.predicate, p.segments_eq]
      refine PredicateTree.fits_atPath (p.segments_eq ▸ p.isSegment) hs ?_
      exact ⟨hne, sub.shape, hrelated, hsub.fits_of_predicate hu⟩
    exact hdeclared.withTree ((h.fits_of_predicate ht).merge hnew)

/-- Each branch may be any builder on the same shape. -/
theorem or (h : b.WellFormed) {subs : List (Builder σ)} (hsubs : ∀ sub ∈ subs, sub.WellFormed)
    (ho : b.or subs = .ok b') : b'.WellFormed := by
  obtain ⟨_, _, hforeign, rfl⟩ := or_eq_ok.1 ho
  refine ⟨h.entity, ?trees, ?relations, ⟨h.names.selection, h.names.order⟩, h.segments,
    h.increasing⟩
  case trees =>
    intro u hu
    obtain ⟨sub, hsub, hu⟩ := List.mem_flatMap.1 hu
    have hfits := (hsubs sub hsub).alternatives u hu
    rw [(hforeign sub hsub).2] at hfits
    exact hfits
  case relations =>
    refine h.relations.foldl_merge fun sub hsub => ?_
    have hrelations := (hsubs sub hsub).relations
    rw [(hforeign sub hsub).2] at hrelations
    exact hrelations

theorem shaped (h : b.WellFormed) {step : Shaping} (hb' : b.shaped step = .ok b') :
    b'.WellFormed := by
  have hnames := h.names.shaped hb'
  obtain ⟨hvalid, rfl⟩ := shaped_eq_ok.1 hb'
  cases step with
  | select field =>
    refine ⟨h.entity, h.alternatives, h.relations, hnames, fun k hk => ?_, ?_⟩
    · rcases mem_insertName hk with rfl | hk
      · exact hvalid.1
      · exact h.segments k hk
    · exact pairwise_insertName h.increasing field
  | fetchRelation hops =>
    obtain ⟨p, t, hp, ht⟩ := hvalid
    have hchain := RelationTree.wellFormed_chain (FieldPath.resolveRelations_eq_ok.1 ht) p.isSegment
    rw [FieldPath.segments_of_ofHops hp] at hchain
    exact ⟨h.entity, h.alternatives, h.relations.merge hchain, hnames, h.segments, h.increasing⟩
  | _ => exact ⟨h.entity, h.alternatives, h.relations, hnames, h.segments, h.increasing⟩

end WellFormed

/-- No call leads to a builder that is not well-formed. -/
theorem Reachable.wellFormed (hb : b.Reachable) : b.WellFormed := by
  induction hb with
  | new h =>
    obtain ⟨s, hs, _, rfl⟩ := new_eq_ok.1 h
    exact .start _ .root
  | filter _ h ih =>
    rcases filter_eq_ok.1 h with ⟨_, _, rfl⟩ | ⟨c, hc, hw⟩
    · exact ih
    · exact ih.write (Filter.isLeaf_of_added? (Filter.added?_of_condition? hc)) hw
  | oneOf _ h ih =>
    obtain ⟨_, b₁, hw, rfl⟩ := oneOf_eq_ok.1 h
    have hb₁ : b₁.WellFormed := ih.write (by trivial) hw
    exact hb₁.close .whereIn
  | joinScope _ h ih =>
    obtain ⟨_, _, s, _, _, rfl⟩ := joinScope_eq_ok.1 h
    exact .start _ _
  | join _ _ h ih ihsub => exact ih.join ihsub h
  | branchScope _ h ih =>
    obtain ⟨_, t, ht, rfl⟩ := branchScope_eq_ok.1 h
    exact (WellFormed.start _ _).withTree (ih.fits_of_predicate ht)
  | or _ _ h ih ihsubs => exact ih.or ihsubs h
  | shaped _ h ih => exact ih.shaped h

end Builder

end RowQuery
