import RowQuery.Proofs.Builder.Run
import RowQuery.Proofs.Directive.Leaves
import RowQuery.Proofs.Tree.Leaves

/-!
# Filters overwrite one another path by path

A list of filters makes one conjunction. At each path stands the condition of the last filter there
that adds one, whatever other paths are filtered by in between, and nothing stands anywhere else
(`leaf?_eq_some_iff_of_filters`). So the order of filters on different paths makes no difference.
-/

namespace RowQuery

/-- A list of filters on paths as a list of directives. -/
def Directive.filters (fs : List (String × Filter)) : List Directive :=
  fs.map fun e => .filter e.1 e.2

/-! ### What a filter adds -/

theorem Filter.added?_eq_some {f : Filter} {c : Condition} :
    f.added? = some c ↔ f.condition? = .ok (some c) := by
  unfold added?
  cases f.condition? <;> simp

/-- Of a filter that can be taken at all, nothing is added only if it says nothing. -/
theorem Filter.added?_eq_none {f : Filter} (h : ∃ c, f.condition? = .ok c) :
    f.added? = none ↔ f.condition? = .ok none := by
  obtain ⟨c, hc⟩ := h
  rw [added?_of_condition? hc, hc, Except.ok.injEq]

/-! ### The last filter on a path -/

variable {fs gs : List (String × Filter)} {ks : List String} {c : Condition}

/-- What a filter adds at a chain of keys. -/
def addedAt (ks : List String) (e : String × Filter) : Option Condition :=
  if dotPieces e.1 = ks then e.2.added? else none

theorem addedAt_eq_some {e : String × Filter} :
    addedAt ks e = some c ↔ dotPieces e.1 = ks ∧ e.2.condition? = .ok (some c) := by
  rw [addedAt, ← Filter.added?_eq_some]
  by_cases h : dotPieces e.1 = ks
  · simp [h]
  · simp [h]

theorem lastWritten_filters (fs : List (String × Filter)) :
    lastWritten ks (writesAll (Directive.filters fs)) = fs.reverse.findSome? (addedAt ks) := by
  induction fs with
  | nil => rfl
  | cons e fs ih =>
    have hwrites : lastWritten ks (Directive.filter e.1 e.2).writes = addedAt ks e := by
      rw [Directive.writes, addedAt]
      cases e.2.added? with
      | none => simp [lastWritten]
      | some c => simp [lastWritten]
    have hcons : writesAll (Directive.filters (e :: fs)) =
        (Directive.filter e.1 e.2).writes ++ writesAll (Directive.filters fs) := rfl
    rw [hcons, lastWritten_append, ih, hwrites, List.reverse_cons, List.findSome?_append]
    cases h : addedAt ks e <;> simp [h]

/-- The last filter that adds a condition at the chain stands before filters that add none there. -/
theorem findSome?_addedAt_eq_some (hfs : ∀ e ∈ fs, ∃ c, e.2.condition? = .ok c) :
    fs.reverse.findSome? (addedAt ks) = some c ↔
      ∃ before path f after, fs = before ++ (path, f) :: after ∧ dotPieces path = ks ∧
        f.condition? = .ok (some c) ∧
        ∀ e ∈ after, dotPieces e.1 = ks → e.2.condition? = .ok none := by
  have hnone : ∀ e ∈ fs, addedAt ks e = none ↔
      (dotPieces e.1 = ks → e.2.condition? = .ok none) := by
    intro e he
    rw [addedAt, ite_eq_right_iff, Filter.added?_eq_none (hfs e he)]
  rw [List.findSome?_eq_some_iff]
  constructor
  · rintro ⟨before, ⟨path, f⟩, after, hsplit, hadded, hrest⟩
    have hsplit := congrArg List.reverse hsplit
    rw [List.reverse_reverse, List.reverse_append, List.reverse_cons, List.append_assoc] at hsplit
    obtain ⟨hpath, hc⟩ := addedAt_eq_some.1 hadded
    refine ⟨after.reverse, path, f, before.reverse, hsplit, hpath, hc, fun e he => ?_⟩
    have hmem : e ∈ fs := by
      rw [hsplit]
      exact List.mem_append_right _ (.tail _ he)
    exact (hnone e hmem).1 (hrest e (List.mem_reverse.1 he))
  · rintro ⟨before, path, f, after, hsplit, hpath, hc, hrest⟩
    refine ⟨after.reverse, (path, f), before.reverse, ?_, addedAt_eq_some.2 ⟨hpath, hc⟩, ?_⟩
    · rw [hsplit, List.reverse_append, List.reverse_cons, List.append_assoc]
      rfl
    · intro e he
      have he := List.mem_reverse.1 he
      have hmem : e ∈ fs := by
        rw [hsplit]
        exact List.mem_append_right _ (.tail _ he)
      exact (hnone e hmem).2 (hrest e he)

/-- Filters on other paths have no part in what is added at a chain. -/
theorem findSome?_addedAt_filter (l : List (String × Filter)) :
    (l.filter fun e => e.1 = FieldPath.joinDots ks).findSome? (addedAt ks) =
      l.findSome? (addedAt ks) := by
  induction l with
  | nil => rfl
  | cons e l ih =>
    by_cases h : e.1 = FieldPath.joinDots ks
    · rw [List.filter_cons_of_pos (by simpa using h), List.findSome?_cons, List.findSome?_cons, ih]
    · have hpieces : dotPieces e.1 ≠ ks := by
        rintro rfl
        exact h (FieldPath.joinDots_dotPieces e.1).symm
      have hnone : addedAt ks e = none := if_neg hpieces
      rw [List.filter_cons_of_neg (by simpa using h), List.findSome?_cons, hnone, ih]

theorem lastWritten_filters_congr
    (h : ∀ path, gs.filter (fun e => e.1 = path) = fs.filter fun e => e.1 = path) :
    lastWritten ks (writesAll (Directive.filters gs)) =
      lastWritten ks (writesAll (Directive.filters fs)) := by
  rw [lastWritten_filters, lastWritten_filters, ← findSome?_addedAt_filter gs.reverse,
    ← findSome?_addedAt_filter fs.reverse, List.filter_reverse, List.filter_reverse, h]

namespace Builder

variable {σ : Schema}

/-- Filters alone are one conjunction, with the leaves that they write last. -/
theorem exists_tree_of_filters {b₀ b : Builder σ} (ht : b₀.spec.predicate = .all [])
    (h : b₀.applyAll (Directive.filters fs) = .ok b) :
    ∃ t, b.spec.predicate = .all t ∧ PredicateTree.Fits σ b₀.shape t ∧
      (∀ ks, t.leaf? ks = lastWritten ks (writesAll (Directive.filters fs))) ∧
      ∀ e ∈ fs, ∃ c, e.2.condition? = .ok c := by
  have hran := ran_of_applyAll h
  have hconj : Conjunctive (Directive.filters fs) := by
    intro d hd
    obtain ⟨e, _, rfl⟩ := List.mem_map.1 hd
    rfl
  have hout : outcome [] (Directive.filters fs) =
      .all (PredicateTree.conjoinAll [] (Directive.filters fs)) :=
    outcome_eq_all_iff.2 ⟨hconj, rfl⟩
  refine ⟨_, (hran.predicate [] ht).trans hout, fits_conjoinAll _ hran.valid trivial, ?_, ?_⟩
  · intro ks
    rw [leaf?_conjoinAll _ hran.valid PredicateTree.fits_nil, PredicateTree.leaf?_empty,
      Option.or_none]
  · intro e he
    have hvalid : Directive.Valid σ b₀.shape (.filter e.1 e.2) :=
      Directive.allValid_iff.1 hran.valid _ (List.mem_map.2 ⟨e, he, rfl⟩)
    have hvalid : e.2.Valid σ b₀.shape e.1 := hvalid
    exact Filter.condition?_eq_ok.2 hvalid.1

/-- A list of filters leads to one tree. It has a leaf at a chain of keys exactly if some filter on
the path of these keys adds this leaf and later ones on the path add nothing; none of its nested
trees is empty; and another list with the same filters on each path, in the same order there, leads
to the same tree. -/
theorem leaf?_eq_some_iff_of_filters {entity : String} {b₀ b : Builder σ}
    (h₀ : new σ entity = .ok b₀) (h : b₀.applyAll (Directive.filters fs) = .ok b) :
    ∃ t, b.spec.predicate = .all t ∧
      (∀ ks c, t.leaf? ks = some c ↔
        ∃ before path f after, fs = before ++ (path, f) :: after ∧ dotPieces path = ks ∧
          f.condition? = .ok (some c) ∧
          ∀ e ∈ after, dotPieces e.1 = ks → e.2.condition? = .ok none) ∧
      (∀ ks u, PredicateTree.find? ks t = some (.nested u) → u ≠ []) ∧
      ∀ gs b', (∀ path, gs.filter (fun e => e.1 = path) = fs.filter fun e => e.1 = path) →
        b₀.applyAll (Directive.filters gs) = .ok b' → b'.spec.predicate = .all t := by
  obtain ⟨s, _, _, rfl⟩ := new_eq_ok.1 h₀
  obtain ⟨t, ht, hfits, hleaf, hfs⟩ := exists_tree_of_filters rfl h
  refine ⟨t, ht, ?leaves, fun ks u hu => hfits.ne_nil_of_find? hu, ?order⟩
  case leaves =>
    intro ks c
    rw [hleaf, lastWritten_filters, findSome?_addedAt_eq_some hfs]
  case order =>
    intro gs b' hsame h'
    obtain ⟨t', ht', hfits', hleaf', _⟩ := exists_tree_of_filters rfl h'
    have heq : t' = t := by
      refine PredicateTree.Fits.eq_of_leaf? t' hfits' hfits fun ks => ?_
      rw [hleaf', hleaf, lastWritten_filters_congr hsame]
    rw [ht', heq]

/-- The second test of the title replaces the first, and the comparison with null leaves it. -/
theorem leaf?_articles_of_filters :
    ∃ b₀ b : Builder .articles, new .articles "Article" = .ok b₀ ∧
      b₀.applyAll (Directive.filters
        [("title", .eq (.string "a")), ("author.name", .notNull), ("title", .ne (.string "b")),
          ("author.team.name", .eq .null), ("title", .compare .lt .null)]) = .ok b ∧
      ∃ b' t, b₀.applyAll (Directive.filters
        [("author.team.name", .eq .null), ("title", .eq (.string "a")),
          ("title", .ne (.string "b")), ("title", .compare .lt .null),
          ("author.name", .notNull)]) = .ok b' ∧
        b.spec.predicate = .all t ∧ b'.spec.predicate = .all t ∧
        t.leaf? ["title"] = some (.op (.notEqual (.string "b"))) := by
  refine exists_run (by decide +kernel) fun b₀ b h₀ h => ?_
  obtain ⟨b₀', b', h₀', h', _⟩ : ∃ b₀' b' : Builder .articles,
      new .articles "Article" = .ok b₀' ∧ b₀'.applyAll (Directive.filters
        [("author.team.name", .eq .null), ("title", .eq (.string "a")),
          ("title", .ne (.string "b")), ("title", .compare .lt .null),
          ("author.name", .notNull)]) = .ok b' ∧ True :=
    exists_run (by decide +kernel) fun _ _ _ _ => trivial
  cases h₀.symm.trans h₀'
  obtain ⟨t, ht, hleaf, _, horder⟩ := leaf?_eq_some_iff_of_filters h₀ h
  refine ⟨b', t, h', ht, horder _ b' (fun path => ?_) h', ?_⟩
  · by_cases htitle : path = "title"
    · subst htitle
      rfl
    · by_cases hname : path = "author.name"
      · subst hname
        rfl
      · simp [List.filter_cons, Ne.symm htitle, Ne.symm hname]
  · refine (hleaf _ _).2 ⟨[_, _], "title", .ne (.string "b"), [_, _], rfl, by decide, rfl, ?_⟩
    intro e he hpath
    simp only [List.mem_cons, List.not_mem_nil, or_false] at he
    rcases he with rfl | rfl
    · exact absurd hpath (by decide)
    · rfl

end Builder

end RowQuery
