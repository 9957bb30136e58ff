import RowQuery.Proofs.Directive.Chains
import RowQuery.Proofs.Tree.Traversal

/-!
# Paths and their texts

A text has one list of pieces between its dots, so a path can be had from its text and its text from
the path (`dotPieces_eq_iff`). It makes no difference whether several texts are read one by one or
joined with dots first, and the trees that are made of a path have the path in them and no more
(`text_laws`).
-/

namespace RowQuery

/-! ### The pieces of a text -/

theorem not_mem_of_mem_splitOn {α : Type} [BEq α] [LawfulBEq α] {a : α} {xs piece : List α}
    (h : piece ∈ xs.splitOn a) : a ∉ piece := by
  induction xs generalizing piece with
  | nil =>
    rw [List.splitOn_nil, List.mem_singleton] at h
    exact h ▸ List.not_mem_nil
  | cons x xs ih =>
    rw [List.splitOn_cons_eq_if_modifyHead] at h
    split at h
    · rcases List.mem_cons.1 h with rfl | h
      · exact List.not_mem_nil
      · exact ih h
    · rename_i hx
      -- the first piece grows by a character that is none to split at
      obtain ⟨first, rest, hsplit⟩ := List.exists_cons_of_ne_nil (List.splitOn_ne_nil a xs)
      rw [hsplit, List.modifyHead_cons] at h
      rcases List.mem_cons.1 h with rfl | h
      · have hfirst : a ∉ first := ih (hsplit ▸ List.mem_cons_self)
        have hne : a ≠ x := by
          rintro rfl
          exact hx (beq_self_eq_true a)
        exact List.not_mem_cons_of_ne_of_not_mem hne hfirst
      · exact ih (hsplit ▸ List.mem_cons_of_mem first h)

theorem dot_not_mem_of_mem_dotPieces {raw piece : String} (h : piece ∈ dotPieces raw) :
    '.' ∉ piece.toList := by
  obtain ⟨l, hl, rfl⟩ := List.mem_map.1 h
  rw [String.toList_ofList]
  exact not_mem_of_mem_splitOn hl

/-- The pieces are the only texts without dots that make up the text when they are joined. -/
theorem dotPieces_eq_iff {raw : String} {ks : List String} :
    dotPieces raw = ks ↔
      ks ≠ [] ∧ (∀ k ∈ ks, '.' ∉ k.toList) ∧ FieldPath.joinDots ks = raw := by
  constructor
  · rintro rfl
    exact ⟨dotPieces_ne_nil raw, fun _ => dot_not_mem_of_mem_dotPieces,
      FieldPath.joinDots_dotPieces raw⟩
  · rintro ⟨hne, hdots, rfl⟩
    rw [FieldPath.dotPieces_joinDots_flatMap hne, flatMap_dotPieces hdots]

/-! ### Trees of one path -/

namespace PredicateTree

/-- The tree of one path has one leaf, the condition at the end of the path. -/
theorem leaf?_atPath_eq_some_iff {ks ls : List String} (hne : ks ≠ []) {c d : Condition}
    (hc : c.isLeaf) : leaf? ls (atPath ks c) = some d ↔ ls = ks ∧ d = c := by
  by_cases hpre : ks <+: ls
  · obtain ⟨ms, rfl⟩ := hpre
    rw [leaf?_atPath hne]
    cases ms with
    | nil => simp [Condition.leaf?_nil hc, eq_comm]
    | cons m ms => simp [Condition.leaf?_cons hc]
  · rw [leaf?_atPath_elsewhere hpre]
    constructor
    · nofun
    · rintro ⟨rfl, _⟩
      exact absurd List.prefix_rfl hpre

theorem leavesBelow_atPath (chain ks : List String) (k : String) (c : Condition) :
    leavesBelow chain (atPath (ks ++ [k]) c) = c.leaves (chain ++ ks) k := by
  induction ks generalizing chain with
  | nil => simp [atPath, leavesBelow]
  | cons l ks ih =>
    obtain ⟨l', ls, hls⟩ := List.exists_cons_of_ne_nil (List.concat_ne_nil k ks)
    have hpath : atPath (l :: ks ++ [k]) c = [(l, .nested (atPath (ks ++ [k]) c))] := by
      rw [List.cons_append, hls]
      rfl
    rw [hpath, leavesBelow, leavesBelow, List.append_nil, Condition.leaves, ih, List.append_assoc,
      List.singleton_append]

end PredicateTree

namespace FieldPath

variable {p : FieldPath} {raw : String}

theorem leaves_predicate (p : FieldPath) (c : Condition) :
    (p.predicate c).leaves = c.leaves p.hops p.leaf := by
  rw [predicate, segments_eq, PredicateTree.leaves, PredicateTree.leavesBelow_atPath,
    List.nil_append]

/-! ### Reading and writing -/

theorem exists_parse_iff : (∃ p, parse raw = .ok p) ↔ "" ∉ dotPieces raw := by
  simp only [parse_eq_ok]
  constructor
  · rintro ⟨p, hp⟩ hempty
    exact (p.isSegment "" (hp ▸ hempty)).1 rfl
  · intro hempty
    have hseg : ∀ k ∈ dotPieces raw, IsSegment k := fun k hk =>
      ⟨fun hnil => hempty (hnil ▸ hk), dot_not_mem_of_mem_dotPieces hk⟩
    exact ⟨⟨dotPieces raw, dotPieces_ne_nil raw, hseg⟩, rfl⟩

theorem parse_text (p : FieldPath) : parse p.text = .ok p := by
  rw [parse_eq_ok, text, dotPieces_joinDots p.ne_nil p.isSegment]

theorem text_of_parse (h : parse raw = .ok p) : p.text = raw := by
  rw [text, parse_eq_ok.1 h, joinDots_dotPieces]

/-- Several texts are read one by one as they are when joined with dots; with none, neither is a
path. -/
theorem ofHops_eq_ok_iff_parse {hops : List String} :
    ofHops hops = .ok p ↔ parse (joinDots hops) = .ok p := by
  rw [ofHops_eq_ok, parse_eq_ok]
  cases hops with
  | nil =>
    have hempty : dotPieces (joinDots []) = [""] := rfl
    rw [hempty, List.flatMap_nil]
    constructor
    · exact fun h => absurd h p.ne_nil
    · intro h
      exact absurd rfl (p.isSegment "" (h ▸ List.mem_singleton_self "")).1
  | cons hop hops => rw [dotPieces_joinDots_flatMap (List.cons_ne_nil _ _)]

/-- A path is read exactly from a text without empty pieces, and written back as that text. Texts of
several hops are read as they are when joined. The declaration of a path declares its prefixes, and
its condition has one leaf, at its end. -/
theorem text_laws (raw : String) (hops : List String) (p : FieldPath) :
    (∀ ks, dotPieces raw = ks ↔
      ks ≠ [] ∧ (∀ k ∈ ks, '.' ∉ k.toList) ∧ joinDots ks = raw) ∧
    ((∃ q, parse raw = .ok q) ↔ "" ∉ dotPieces raw) ∧
    (∀ q, parse raw = .ok q → q.text = raw ∧ parse q.text = .ok q) ∧
    (∀ q, ofHops hops = .ok q ↔ parse (joinDots hops) = .ok q) ∧
    (∀ q, parse raw = .ok q ∨ ofHops hops = .ok q →
      ∀ k ∈ q.segments, k ≠ "" ∧ '.' ∉ k.toList) ∧
    (∀ ks, p.declaration.containsPath ks = true ↔ ks <+: p.segments) ∧
    ∀ c : Condition, c.isLeaf → (p.predicate c).leaves.length = 1 ∧
      ∀ ks d, (p.predicate c).leaf? ks = some d ↔ ks = p.segments ∧ d = c := by
  refine ⟨fun ks => dotPieces_eq_iff, exists_parse_iff, ?back, fun q => ofHops_eq_ok_iff_parse,
    fun q _ => q.isSegment, ?declaration, ?leaf⟩
  case back => exact fun q h => ⟨text_of_parse h, parse_text q⟩
  case declaration => exact RelationTree.containsPath_atPath_load_iff p.segments
  case leaf =>
    intro c hc
    constructor
    · rw [leaves_predicate]
      cases c with
      | nested t => exact hc.elim
      | value v => rfl
      | op o => rfl
    · exact fun ks d => PredicateTree.leaf?_atPath_eq_some_iff p.ne_nil hc

/-- Two hops, of which the first is a path itself. -/
theorem text_laws_tags :
    ∃ p, parse "photos.tags.label" = .ok p ∧ p.text = "photos.tags.label" ∧
      ofHops ["photos.tags", "label"] = .ok p ∧
      p.declaration.containsPath ["photos", "tags"] = true ∧
      (p.predicate (.value (.string "b"))).leaf? ["photos", "tags", "label"] =
        some (.value (.string "b")) := by
  let p : FieldPath := ⟨["photos", "tags", "label"], by decide, by decide⟩
  obtain ⟨hpieces, _, hback, hhops, _, hprefixes, hleaf⟩ :=
    text_laws "photos.tags.label" ["photos.tags", "label"] p
  have hp : parse "photos.tags.label" = .ok p :=
    parse_eq_ok.2 ((hpieces p.segments).2 (by decide)).symm
  have hjoin : joinDots ["photos.tags", "label"] = "photos.tags.label" := by decide
  refine ⟨p, hp, (hback p hp).1, (hhops p).2 (hjoin ▸ hp), (hprefixes _).2 (by decide), ?_⟩
  exact ((hleaf (.value (.string "b")) trivial).2 _ _).2 ⟨rfl, rfl⟩

end FieldPath

end RowQuery
