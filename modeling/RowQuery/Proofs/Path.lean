import RowQuery.Path

/-!
# Paths through a schema

A chain of segments and its text with dots are two views of one thing. `Schema.follow?` walks a
chain of relations, and a path resolves exactly when its hops can be followed and end on what the
path asks for.
-/

namespace RowQuery

/-! ### Texts of chains -/

theorem dotPieces_ne_nil (raw : String) : dotPieces raw ≠ [] := by
  simp [dotPieces, List.splitOn]

/-- A dot separates the pieces before it from those behind it. -/
theorem dotPieces_append_dot (raw raw' : String) :
    dotPieces (raw ++ "." ++ raw') = dotPieces raw ++ dotPieces raw' := by
  have htext : (raw ++ "." ++ raw').toList = raw.toList ++ '.' :: raw'.toList := by simp
  rw [dotPieces, htext, List.splitOn_append_cons_self, List.map_append]
  rfl

/-- A text without dots is one piece. -/
theorem dotPieces_of_not_mem {raw : String} (h : '.' ∉ raw.toList) : dotPieces raw = [raw] := by
  rw [dotPieces, List.splitOn_eq_singleton h, List.map_singleton, String.ofList_toList]

theorem flatMap_dotPieces {ks : List String} (h : ∀ k ∈ ks, '.' ∉ k.toList) :
    ks.flatMap dotPieces = ks := by
  induction ks with
  | nil => rfl
  | cons k ks ih =>
    obtain ⟨hk, hks⟩ := List.forall_mem_cons.1 h
    rw [List.flatMap_cons, dotPieces_of_not_mem hk, ih hks, List.singleton_append]

namespace FieldPath

theorem toList_joinDots (ks : List String) :
    (joinDots ks).toList = ['.'].intercalate (ks.map String.toList) := by
  rw [joinDots, String.toList_intercalate]
  rfl

/-- A text is put together again from its pieces. -/
theorem joinDots_dotPieces (raw : String) : joinDots (dotPieces raw) = raw := by
  apply String.toList_injective
  rw [toList_joinDots, dotPieces, List.map_map]
  have hid : String.toList ∘ String.ofList = id := by
    funext l
    simp
  rw [hid, List.map_id, List.intercalate_splitOn]

theorem joinDots_singleton (k : String) : joinDots [k] = k := rfl

theorem joinDots_cons_cons (k k' : String) (ks : List String) :
    joinDots (k :: k' :: ks) = k ++ "." ++ joinDots (k' :: ks) := by
  apply String.toList_injective
  simp only [toList_joinDots, String.toList_append, List.map_cons, List.intercalate_cons_cons]
  rfl

theorem joinDots_concat {ks : List String} (hne : ks ≠ []) (k : String) :
    joinDots (ks ++ [k]) = joinDots ks ++ "." ++ k := by
  induction ks with
  | nil => exact absurd rfl hne
  | cons l ks ih =>
    cases ks with
    | nil => exact joinDots_cons_cons l k []
    | cons l' ks =>
      rw [List.cons_append, List.cons_append, joinDots_cons_cons, joinDots_cons_cons,
        ← List.cons_append, ih (List.cons_ne_nil _ _)]
      simp only [String.append_assoc]

/-- The pieces of a text that is joined with dots are the pieces of its parts. -/
theorem dotPieces_joinDots_flatMap {ks : List String} (hne : ks ≠ []) :
    dotPieces (joinDots ks) = ks.flatMap dotPieces := by
  induction ks with
  | nil => exact absurd rfl hne
  | cons k ks ih =>
    cases ks with
    | nil => rw [joinDots_singleton, List.flatMap_singleton]
    | cons k' ks =>
      rw [joinDots_cons_cons, dotPieces_append_dot, ih (List.cons_ne_nil _ _), ← List.flatMap_cons]

/-- A chain is read back from its text. -/
theorem dotPieces_joinDots {ks : List String} (hne : ks ≠ []) (hk : ∀ k ∈ ks, IsSegment k) :
    dotPieces (joinDots ks) = ks := by
  rw [dotPieces_joinDots_flatMap hne, flatMap_dotPieces fun k hmem => (hk k hmem).2]

theorem joinDots_ne_empty {ks : List String} (hne : ks ≠ []) (hk : ∀ k ∈ ks, IsSegment k) :
    joinDots ks ≠ "" := by
  intro h
  have hback := dotPieces_joinDots hne hk
  rw [h] at hback
  have hmem : "" ∈ ks := by rw [← hback]; decide
  exact (hk "" hmem).1 rfl

/-! ### Parsing -/

variable {p : FieldPath} {raw : String}

/-- A text is read as the path of its pieces, or not at all. -/
theorem parse_eq_ok : parse raw = .ok p ↔ p.segments = dotPieces raw := by
  unfold parse ofSegments?
  constructor
  · intro h
    split at h
    · rename_i hp
      split at hp
      · cases hp
        cases h
        rfl
      · cases hp
    · cases h
  · intro h
    rw [dif_pos ⟨h ▸ p.ne_nil, h ▸ p.isSegment⟩]
    simp only [← h]

/-- The path of one segment. -/
def ofSegment {k : String} (h : IsSegment k) : FieldPath := ⟨[k], by simp, by simpa using h⟩

theorem parse_segment {k : String} (h : IsSegment k) : parse k = .ok (ofSegment h) := by
  have hpieces : dotPieces (joinDots [k]) = [k] := dotPieces_joinDots (by simp) (by simpa using h)
  exact parse_eq_ok.2 (hpieces.symm.trans (by rw [joinDots_singleton]))

/-- A path of one segment is the segment. -/
theorem parse_not_isNested :
    (∃ p, parse raw = .ok p ∧ p.isNested = false) ↔ IsSegment raw := by
  simp only [parse_eq_ok, isNested, decide_eq_false_iff_not, Nat.not_lt]
  constructor
  · rintro ⟨p, hp, hlen⟩
    obtain ⟨k, hk⟩ : ∃ k, p.segments = [k] := by
      cases hseg : p.segments with
      | nil => exact absurd hseg p.ne_nil
      | cons k ks =>
        rw [hseg, List.length_cons] at hlen
        rw [List.eq_nil_of_length_eq_zero (by omega : ks.length = 0)]
        exact ⟨k, rfl⟩
    have hraw : raw = k := by rw [← joinDots_dotPieces raw, ← hp, hk, joinDots_singleton]
    rw [hraw]
    exact p.isSegment k (by rw [hk]; exact .head _)
  · exact fun h => ⟨ofSegment h, parse_eq_ok.1 (parse_segment h), Nat.le_refl 1⟩

theorem segments_eq (p : FieldPath) : p.segments = p.hops ++ [p.leaf] :=
  (List.dropLast_concat_getLast p.ne_nil).symm

theorem isSegment_hops {k : String} (h : k ∈ p.hops) : IsSegment k :=
  p.isSegment k (List.dropLast_subset _ h)

/-- The prefix of a path declares the hops of the path, and with no hops nothing. -/
theorem relationPrefix?_eq (p : FieldPath) :
    p.relationPrefix? = if h : p.hops ≠ [] then some ⟨p.hops, h, fun _ => isSegment_hops⟩
      else none := by
  unfold relationPrefix? ofSegments?
  by_cases h : p.hops ≠ []
  · rw [dif_pos h, dif_pos ⟨h, fun _ => isSegment_hops⟩]
  · rw [dif_neg h, dif_neg (fun hc => h hc.1)]

theorem flatMap_segments_of_mapM {hops : List String} {paths : List FieldPath}
    (h : hops.mapM parse = .ok paths) : paths.flatMap segments = hops.flatMap dotPieces := by
  induction hops generalizing paths with
  | nil =>
    rw [List.mapM_nil] at h
    cases h
    rfl
  | cons hop hops ih =>
    rw [List.mapM_cons] at h
    obtain ⟨q, hq, h⟩ := bind_eq_ok.1 h
    obtain ⟨qs, hqs, h⟩ := bind_eq_ok.1 h
    cases h
    rw [List.flatMap_cons, List.flatMap_cons, ih hqs, parse_eq_ok.1 hq]

theorem segments_of_ofHops {hops : List String} (h : ofHops hops = .ok p) :
    p.segments = hops.flatMap dotPieces := by
  obtain ⟨paths, hpaths, h⟩ := bind_eq_ok.1 h
  rw [← flatMap_segments_of_mapM hpaths]
  unfold ofSegments? at h
  split at h
  · rename_i hp
    split at hp
    · cases hp
      cases h
      rfl
    · cases hp
  · cases h

theorem exists_mapM_parse {hops : List String} (h : ∀ k ∈ hops.flatMap dotPieces, IsSegment k) :
    ∃ paths, hops.mapM parse = .ok paths := by
  induction hops with
  | nil => exact ⟨[], rfl⟩
  | cons hop hops ih =>
    rw [List.flatMap_cons, List.forall_mem_append] at h
    obtain ⟨paths, hpaths⟩ := ih h.2
    have hhop : parse hop = .ok ⟨dotPieces hop, dotPieces_ne_nil hop, h.1⟩ := parse_eq_ok.2 rfl
    exact ⟨_ :: paths, by rw [List.mapM_cons, hhop, hpaths]; rfl⟩

/-- Several hops are read as the path of all their pieces, or not at all. -/
theorem ofHops_eq_ok {hops : List String} :
    ofHops hops = .ok p ↔ p.segments = hops.flatMap dotPieces := by
  refine ⟨segments_of_ofHops, fun h => ?_⟩
  obtain ⟨paths, hpaths⟩ := exists_mapM_parse (h ▸ p.isSegment)
  have hall : paths.flatMap segments = p.segments := by rw [flatMap_segments_of_mapM hpaths, h]
  refine bind_eq_ok.2 ⟨paths, hpaths, ?_⟩
  rw [ofSegments?, hall, dif_pos ⟨p.ne_nil, p.isSegment⟩]

end FieldPath

/-! ### Following relations -/

namespace Schema

variable (σ : Schema) (s : Shape)

/-- The shape at the end of a chain of relations. -/
def follow? (hops : List String) : Option Shape := hops.foldlM σ.related? s

@[simp] theorem follow?_nil : σ.follow? s [] = some s := rfl

@[simp] theorem follow?_cons (hop : String) (hops : List String) :
    σ.follow? s (hop :: hops) = (σ.related? s hop).bind fun t => σ.follow? t hops := by
  simp [follow?]

theorem follow?_append (ks ls : List String) :
    σ.follow? s (ks ++ ls) = (σ.follow? s ks).bind fun t => σ.follow? t ls := by
  simp [follow?]

variable {σ s}

theorem related?_eq_some {t : Shape} {field : String} :
    σ.related? s field = some t ↔
      ∃ f r, s.field? field = some f ∧ f.relation? = some r ∧ σ.shape? r.target = some t := by
  simp only [related?, Option.bind_eq_some_iff]
  constructor
  · rintro ⟨r, ⟨f, hf, hr⟩, ht⟩
    exact ⟨f, r, hf, hr, ht⟩
  · rintro ⟨f, r, hf, hr, ht⟩
    exact ⟨r, ⟨f, hf, hr⟩, ht⟩

theorem shape_eq_ok {t : Shape} {entity : String} :
    σ.shape entity = .ok t ↔ σ.shape? entity = some t := by
  unfold shape
  cases σ.shape? entity <;> simp

/-- Articles have an author, who belongs to a team. -/
def articles : Schema := .ofList
  [⟨"Article", "articles", "id",
      [⟨"title", .scalar⟩, ⟨"author", .relation ⟨"Author", .one, "author_id", "id"⟩⟩]⟩,
    ⟨"Author", "authors", "id",
      [⟨"name", .scalar⟩, ⟨"team", .relation ⟨"Team", .one, "team_id", "id"⟩⟩]⟩,
    ⟨"Team", "teams", "id", [⟨"name", .scalar⟩]⟩]

example : ((articles.shape? "Article").bind fun s => articles.follow? s ["author", "team"]).map
    Shape.name = some "Team" := by decide +kernel

end Schema

/-! ### Resolution -/

namespace FieldPath

variable {σ : Schema} {s t : Shape} {p : FieldPath}

theorem step_eq_ok {hop : String} : p.step σ s hop = .ok t ↔ σ.related? s hop = some t := by
  rw [Schema.related?_eq_some]
  simp only [step, bind_eq_ok, Shape.requireField_eq_ok]
  constructor
  · rintro ⟨f, hf, h⟩
    cases hr : f.relation? with
    | none => simp only [hr] at h; cases h
    | some r => exact ⟨f, r, hf, hr, by simpa only [hr, Schema.shape_eq_ok] using h⟩
  · rintro ⟨f, r, hf, hr, h⟩
    exact ⟨f, hf, by simpa only [hr, Schema.shape_eq_ok] using h⟩

theorem foldlM_step_eq_ok {hops : List String} :
    hops.foldlM (p.step σ) s = .ok t ↔ σ.follow? s hops = some t := by
  induction hops generalizing s with
  | nil => exact ⟨fun h => by cases h; rfl, fun h => by cases h; rfl⟩
  | cons hop hops ih =>
    rw [List.foldlM_cons, Schema.follow?_cons, bind_eq_ok, Option.bind_eq_some_iff]
    simp only [step_eq_ok, ih]

/-- A path resolves to a field if its hops can be followed to a shape that has it. -/
theorem resolve_eq_ok {f : Field} :
    p.resolve σ s = .ok (t, f) ↔
      σ.follow? s p.hops = some t ∧ t.field? p.leaf = some f ∧ f.isRelation = false := by
  simp only [resolve, bind_eq_ok, foldlM_step_eq_ok, Shape.requireField_eq_ok, refuseIf_eq_ok]
  constructor
  · rintro ⟨t', ht, f', hf, -, hr, h⟩
    cases h
    exact ⟨ht, hf, by simpa using hr⟩
  · rintro ⟨ht, hf, hr⟩
    exact ⟨t, ht, f, hf, (), by simpa using hr, rfl⟩

theorem resolveRelations_eq_ok :
    p.resolveRelations σ s = .ok t ↔ σ.follow? s p.segments = some t :=
  foldlM_step_eq_ok

end FieldPath

end RowQuery
