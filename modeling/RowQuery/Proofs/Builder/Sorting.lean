import RowQuery.Proofs.Builder.Shaping
import RowQuery.Proofs.Document.Rows

/-!
# Sort keys and how often they are mentioned

A list may sort by a field more than once. The field keeps the place of its first mention and takes
the direction of its last (`fields_sortKeys`, `mem_sortKeys`), so an accepted list is sorted by what
the steps of its own level mention, each field once (`order_laws`). Nothing is lost by that: where
all mentions of a field have one direction, those behind the first have nothing left to decide
(`compareBy_map_eraseDups`).
-/

namespace RowQuery

/-! ### Mentions -/

/-- The sort key that a shaping step mentions. -/
def Shaping.sortKey? : Shaping → Option OrderBy
  | .sort direction field => some ⟨field, direction⟩
  | _ => none

/-- What a list sorts by on its own level, as often as it says so. -/
def sortMentions (ds : List Directive) : List OrderBy := (shapings ds).filterMap Shaping.sortKey?

/-- The direction that a field is mentioned with last. -/
def lastDirection? (field : String) (ms : List OrderBy) : Option Direction :=
  (ms.reverse.find? (·.field = field)).map OrderBy.direction

/-- The mentions in their places, each with the direction that its field is mentioned with last. -/
def settled (ms : List OrderBy) : List OrderBy :=
  ms.map fun m => { m with direction := (lastDirection? m.field ms).getD m.direction }

section

variable {ds : List Directive} {ms : List OrderBy} {o : OrderBy} {field : String}

theorem mem_of_mem_sortMentions (h : o ∈ sortMentions ds) :
    .shape (.sort o.direction o.field) ∈ ds := by
  obtain ⟨step, hstep, hkey⟩ := List.mem_filterMap.1 h
  obtain ⟨d, hd, hshape⟩ := List.mem_filterMap.1 hstep
  cases d with
  | shape step' =>
    cases hshape
    cases step with
    | sort direction field =>
      cases hkey
      exact hd
    | _ => cases hkey
  | _ => cases hshape

@[simp] theorem lastDirection?_nil (field : String) : lastDirection? field [] = none := rfl

theorem lastDirection?_concat (field : String) (ms : List OrderBy) (m : OrderBy) :
    lastDirection? field (ms ++ [m]) =
      if m.field = field then some m.direction else lastDirection? field ms := by
  rw [lastDirection?, List.reverse_append, List.reverse_singleton, List.singleton_append,
    List.find?_cons]
  by_cases h : m.field = field <;> simp [h, lastDirection?]

/-- The last direction is that of a mention of the field, behind which there is no other. -/
theorem exists_of_lastDirection? (h : lastDirection? o.field ms = some o.direction) :
    ∃ before after, ms = before ++ o :: after ∧ ∀ m ∈ after, m.field ≠ o.field := by
  obtain ⟨m, hfind, hdirection⟩ := Option.map_eq_some_iff.1 h
  obtain ⟨hfield, after, before, hsplit, hafter⟩ := List.find?_eq_some_iff_append.1 hfind
  obtain rfl : m = o := by
    cases m
    cases o
    simp_all
  refine ⟨before.reverse, after.reverse, ?_, fun m' hm' => ?_⟩
  · have hreverse := congrArg List.reverse hsplit
    simpa using hreverse
  · simpa using hafter m' (List.mem_reverse.1 hm')

theorem exists_lastDirection? (h : field ∈ ms.map OrderBy.field) :
    ∃ direction, lastDirection? field ms = some direction := by
  obtain ⟨m, hm, hfield⟩ := List.mem_map.1 h
  have hfind : (ms.reverse.find? (·.field = field)).isSome = true :=
    List.find?_isSome.2 ⟨m, List.mem_reverse.2 hm, decide_eq_true hfield⟩
  obtain ⟨last, hlast⟩ := Option.isSome_iff_exists.1 hfind
  exact ⟨last.direction, by rw [lastDirection?, hlast, Option.map_some]⟩

end

/-! ### What mentions lead to -/

namespace Builder

section

variable {order : List OrderBy} {o : OrderBy} {field : String} {direction : Direction}

/-- A field that is there already keeps its place. -/
theorem fields_setOrder : (setOrder field direction order).map OrderBy.field =
    if field ∈ order.map OrderBy.field then order.map OrderBy.field
    else order.map OrderBy.field ++ [field] := by
  induction order with
  | nil => simp [setOrder]
  | cons o order ih =>
    rw [setOrder]
    by_cases ho : o.field = field
    · simp [ho]
    · have hne : field ≠ o.field := fun h => ho h.symm
      by_cases hmem : field ∈ order.map OrderBy.field
      · rw [if_pos hmem] at ih
        rw [if_neg ho, List.map_cons, List.map_cons, ih, if_pos (List.mem_cons_of_mem _ hmem)]
      · rw [if_neg hmem] at ih
        rw [if_neg ho, List.map_cons, List.map_cons, ih,
          if_neg (List.not_mem_cons_of_ne_of_not_mem hne hmem), List.cons_append]

/-- The field takes the direction, and no other key changes. -/
theorem mem_setOrder_iff (hnodup : (order.map OrderBy.field).Nodup) :
    o ∈ setOrder field direction order ↔
      if o.field = field then o.direction = direction else o ∈ order := by
  have hself (o : OrderBy) (h : o.field = field) :
      o = ⟨field, direction⟩ ↔ o.direction = direction := by
    obtain ⟨f, d⟩ := o
    cases h
    simp
  induction order with
  | nil =>
    rw [setOrder, List.mem_singleton]
    by_cases ho : o.field = field
    · rw [if_pos ho, hself o ho]
    · rw [if_neg ho]
      exact iff_of_false (fun h => ho (congrArg OrderBy.field h)) List.not_mem_nil
  | cons o' order ih =>
    rw [List.map_cons, List.nodup_cons] at hnodup
    obtain ⟨hnew, hnodup⟩ := hnodup
    rw [setOrder]
    by_cases ho' : o'.field = field
    · rw [if_pos ho', List.mem_cons, List.mem_cons]
      by_cases ho : o.field = field
      · -- the key that is replaced is the only one for the field
        have hrest : o ∉ order := fun h => hnew (ho'.trans ho.symm ▸ List.mem_map_of_mem h)
        rw [if_pos ho, hself o ho]
        exact or_iff_left hrest
      · have hne : o ≠ ⟨field, direction⟩ := fun h => ho (congrArg OrderBy.field h)
        have hne' : o ≠ o' := fun h => ho (h ▸ ho')
        rw [if_neg ho, or_iff_right hne, or_iff_right hne']
    · rw [if_neg ho', List.mem_cons, List.mem_cons]
      refine (or_congr_right (ih hnodup)).trans ?_
      by_cases ho : o.field = field
      · have hne' : o ≠ o' := fun h => ho' (h ▸ ho)
        rw [if_pos ho, if_pos ho, or_iff_right hne']
      · rw [if_neg ho, if_neg ho]

end

end Builder

/-- The sort keys that mentions leave, when they come one after the other. -/
def sortKeys (ms : List OrderBy) : List OrderBy :=
  ms.foldl (fun order m => Builder.setOrder m.field m.direction order) []

section

variable (ms : List OrderBy) (m : OrderBy)

@[simp] theorem sortKeys_nil : sortKeys [] = [] := rfl

theorem sortKeys_concat :
    sortKeys (ms ++ [m]) = Builder.setOrder m.field m.direction (sortKeys ms) := by
  simp [sortKeys]

theorem eraseDups_concat {α : Type} [BEq α] [LawfulBEq α] (l : List α) (a : α) :
    (l ++ [a]).eraseDups = if a ∈ l then l.eraseDups else l.eraseDups ++ [a] := by
  rw [List.eraseDups_append]
  by_cases h : a ∈ l <;> simp [List.removeAll, List.eraseDups_cons, h]

/-- The keys are for the mentioned fields, in the order of their first mention. -/
theorem fields_sortKeys :
    (sortKeys ms).map OrderBy.field = (ms.map OrderBy.field).eraseDups := by
  induction ms using List.reverseRecOn with
  | nil => rfl
  | append_singleton ms m ih =>
    rw [sortKeys_concat, Builder.fields_setOrder, ih, List.map_append, List.map_singleton,
      eraseDups_concat]
    simp only [List.mem_eraseDups]

theorem nodup_sortKeys : ((sortKeys ms).map OrderBy.field).Nodup := by
  induction ms using List.reverseRecOn with
  | nil => exact List.nodup_nil
  | append_singleton ms m ih =>
    rw [sortKeys_concat, Builder.fields_setOrder]
    split
    · exact ih
    · rename_i hnew
      exact List.nodup_append_comm.1 (List.nodup_cons.2 ⟨hnew, ih⟩)

variable {ms} in
/-- Each field that is mentioned has the direction of its last mention. -/
theorem mem_sortKeys {o : OrderBy} :
    o ∈ sortKeys ms ↔ lastDirection? o.field ms = some o.direction := by
  induction ms using List.reverseRecOn with
  | nil => simp
  | append_singleton ms m ih =>
    rw [sortKeys_concat, Builder.mem_setOrder_iff (nodup_sortKeys ms), lastDirection?_concat]
    by_cases h : m.field = o.field
    · rw [if_pos h.symm, if_pos h, Option.some.injEq]
      exact eq_comm
    · rw [if_neg (fun h' => h h'.symm), if_neg h, ih]

/-! ### Keys for one field -/

/-- The key for a field that a list of mentions settles. -/
def keyOf (field : String) : OrderBy := ⟨field, (lastDirection? field ms).getD .asc⟩

theorem settled_eq_map : settled ms = (ms.map OrderBy.field).map (keyOf ms) := by
  rw [settled, List.map_map]
  refine List.map_congr_left fun m hm => ?_
  obtain ⟨direction, hlast⟩ := exists_lastDirection? (List.mem_map_of_mem hm)
  simp only [Function.comp_apply, keyOf, hlast, Option.getD_some]

theorem sortKeys_eq_map : sortKeys ms = (ms.map OrderBy.field).eraseDups.map (keyOf ms) := by
  rw [← fields_sortKeys, List.map_map]
  refine (List.map_id _).symm.trans (List.map_congr_left fun o ho => ?_)
  simp only [Function.comp_apply, keyOf, mem_sortKeys.1 ho, Option.getD_some, id]

/-- Documents are compared alike by the keys and by the settled mentions. -/
theorem compareBy_sortKeys :
    Document.compareBy (sortKeys ms) = Document.compareBy (settled ms) := by
  rw [sortKeys_eq_map, settled_eq_map, Document.compareBy_map_eraseDups]

end

/-! ### Accepted lists -/

theorem order_foldl_reshape (steps : List Shaping) (q : QuerySpec) :
    (steps.foldl Shaping.reshape q).order = (steps.filterMap Shaping.sortKey?).foldl
      (fun order m => Builder.setOrder m.field m.direction order) q.order := by
  induction steps generalizing q with
  | nil => rfl
  | cons step steps ih =>
    rw [List.foldl_cons, ih]
    cases step <;> rfl

namespace Builder

variable {σ : Schema} {entity : String} {b₀ b : Builder σ} {ds : List Directive}

theorem order_of_applyAll (h₀ : new σ entity = .ok b₀) (h : b₀.applyAll ds = .ok b) :
    b.spec.order = sortKeys (sortMentions ds) := by
  obtain ⟨_, _, _, rfl⟩ := new_eq_ok.1 h₀
  have hsame := sameShaping_of_applyAll (.refl _) h
  rw [← hsame.order, order_foldl_reshape]
  rfl

/-- The sort keys of an accepted list are for the fields that its own sort steps mention, each once
and in the order of the first mention, with the direction of the last. They are plain fields of the
entity, and sort all documents as the list of all mentions does in which those of one field have the
direction of the last. -/
theorem order_laws (h₀ : new σ entity = .ok b₀) (h : b₀.applyAll ds = .ok b) :
    (b.spec.order.map OrderBy.field).Nodup ∧
      b.spec.order.map OrderBy.field = ((sortMentions ds).map OrderBy.field).eraseDups ∧
      (∀ o ∈ b.spec.order, ∃ before after, sortMentions ds = before ++ o :: after ∧
        ∀ m ∈ after, m.field ≠ o.field) ∧
      (∃ s, σ.shape? entity = some s ∧
        ∀ o ∈ b.spec.order, IsSegment o.field ∧ s.HasPlain o.field) ∧
      ∀ (store : Document.Store) (q : Document.Query),
        store.rows { q with order := b.spec.order } =
          store.rows { q with order := settled (sortMentions ds) } := by
  have horder := order_of_applyAll h₀ h
  obtain ⟨s, _, hs, rfl⟩ := new_eq_ok.1 h₀
  have hlast : ∀ o ∈ b.spec.order, ∃ before after, sortMentions ds = before ++ o :: after ∧
      ∀ m ∈ after, m.field ≠ o.field := by
    intro o ho
    rw [horder] at ho
    exact exists_of_lastDirection? (mem_sortKeys.1 ho)
  refine ⟨?once, ?first, hlast, ⟨s, hs, ?plain⟩, ?rows⟩
  case once => exact horder ▸ nodup_sortKeys _
  case first => exact horder ▸ fields_sortKeys _
  case plain =>
    intro o ho
    obtain ⟨before, after, hmentions, _⟩ := hlast o ho
    have hmem : o ∈ sortMentions ds := by rw [hmentions]; simp
    exact Directive.allValid_iff.1 (ran_of_applyAll h).valid _ (mem_of_mem_sortMentions hmem)
  case rows =>
    intro store q
    rw [horder]
    exact Document.rows_congr_order store q (compareBy_sortKeys _)

end Builder

/-- Users have an age and a name. -/
def Schema.users : Schema := .ofList
  [⟨"User", "users", "id", [⟨"age", .scalar⟩, ⟨"name", .scalar⟩]⟩]

/-- The age is sorted by again, in the other direction, behind the name. -/
theorem Builder.order_laws_users :
    ∃ b₀ b : Builder .users, new .users "User" = .ok b₀ ∧
      b₀.applyAll
        [.shape (.sort .asc "age"), .filter "age" .notNull, .shape (.sort .desc "name"),
          .oneOf "name" [.string "Ada"], .shape (.sort .desc "age")] = .ok b ∧
      b.spec.order.map OrderBy.field = ["age", "name"] ∧
      ∀ (store : Document.Store) (q : Document.Query),
        store.rows { q with order := b.spec.order } =
          store.rows { q with order := [⟨"age", .desc⟩, ⟨"name", .desc⟩, ⟨"age", .desc⟩] } := by
  refine exists_run (by decide +kernel) fun b₀ b h₀ h => ?_
  obtain ⟨_, hfields, _, _, hrows⟩ := order_laws h₀ h
  refine ⟨hfields.trans (by decide +kernel), hrows⟩

end RowQuery
