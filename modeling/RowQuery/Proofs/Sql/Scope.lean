import Mathlib.Data.List.Nodup
import RowQuery.Proofs.Builder.WellFormed
import RowQuery.Proofs.Sql.Condition
import RowQuery.Proofs.Sql.Reference
import RowQuery.Proofs.Sql.Tables

/-!
# The names of a statement are in scope

A statement calls a table by the path that leads to it, written with dots. Paths of segments can be
told apart by their text (`tableOf_injective`), so no two tables of a statement have one name, and
every reference leads to the table that is meant by it (`wellScoped_of_reachable`).
-/

namespace RowQuery

namespace Sql

open Fragment

/-- The name of the table at the end of a chain of relations. -/
def tableOf (ks : List String) : String :=
  if ks = [] then root else aliasOf (FieldPath.joinDots ks)

theorem tableOf_nil : tableOf [] = root := rfl

theorem tableOf_of_ne_nil {ks : List String} (h : ks ≠ []) :
    tableOf ks = aliasOf (FieldPath.joinDots ks) :=
  if_neg h

theorem aliasOf_injective {p q : String} (h : aliasOf p = aliasOf q) : p = q := by
  have hlist := congrArg String.toList h
  simp only [aliasOf, String.toList_append, List.append_assoc] at hlist
  exact String.toList_injective (List.append_cancel_left (List.append_cancel_left hlist))

theorem aliasOf_ne_root (p : String) : aliasOf p ≠ root := by
  intro h
  have hlength := congrArg (fun s => s.toList.length) h
  simp [aliasOf, String.toList_append] at hlength

theorem joinDots_injective {ks ls : List String} (hks : ks ≠ []) (hls : ls ≠ [])
    (hseg : ∀ k ∈ ks, IsSegment k) (hseg' : ∀ l ∈ ls, IsSegment l)
    (h : FieldPath.joinDots ks = FieldPath.joinDots ls) : ks = ls := by
  rw [← FieldPath.dotPieces_joinDots hks hseg, h, FieldPath.dotPieces_joinDots hls hseg']

/-- The name of a table tells the chain that leads to it. -/
theorem tableOf_injective {ks ls : List String} (hseg : ∀ k ∈ ks, IsSegment k)
    (hseg' : ∀ l ∈ ls, IsSegment l) (h : tableOf ks = tableOf ls) : ks = ls := by
  by_cases hks : ks = []
  · by_cases hls : ls = []
    · rw [hks, hls]
    · rw [hks, tableOf_nil, tableOf_of_ne_nil hls] at h
      exact absurd h.symm (aliasOf_ne_root _)
  · by_cases hls : ls = []
    · rw [hls, tableOf_nil, tableOf_of_ne_nil hks] at h
      exact absurd h (aliasOf_ne_root _)
    · rw [tableOf_of_ne_nil hks, tableOf_of_ne_nil hls] at h
      exact joinDots_injective hks hls hseg hseg' (aliasOf_injective h)

theorem tableAt_pathOf {ks : List String} (hseg : ∀ k ∈ ks, IsSegment k) :
    tableAt (pathOf ks) = tableOf ks := by
  have hempty : "" ∉ ks := fun h => (hseg "" h).1 rfl
  obtain ⟨hpath, hne⟩ := Leaf.pathOf_chain hempty
  by_cases hks : ks = []
  · subst hks
    rfl
  · rw [tableAt, if_neg (hne hks), tableOf_of_ne_nil hks, hpath]

/-! ### Joins -/

/-- The join follows the last relation of a chain from the shape `s`. -/
def Join.Follows (σ : Schema) (s : Shape) (ks : List String) (j : Join) : Prop :=
  ∃ chain k t, ks = chain ++ [k] ∧ σ.follow? s chain = some t ∧
    (∃ f, t.field? k = some f ∧ f.relation? = some j.relation) ∧
    σ.shape? j.relation.target = some j.shape ∧ j.path = pathOf ks ∧
      j.parent = tableAt (pathOf chain)

section Joins

variable {σ : Schema} {s₀ : Shape}

mutual

theorem joinsBelow_follow : {s : Shape} → {chain : List String} → {js : List Join} →
    (n : RelationNode) → joinsBelow σ s (pathOf chain) n = .ok js → σ.follow? s₀ chain = some s →
    List.Forall₂ (Join.Follows σ s₀) (n.pathsBelow chain) js
  | _, _, _, .load, h, _ => by
    cases h
    exact .nil
  | _, _, _, .nested t, h, hs => joinsOf_follow t h hs

/-- There is one join for each declared path, in the order of the paths. -/
theorem joinsOf_follow : {s : Shape} → {chain : List String} → {js : List Join} →
    (t : List (String × RelationNode)) → joinsOf σ s (pathOf chain) t = .ok js →
    σ.follow? s₀ chain = some s →
    List.Forall₂ (Join.Follows σ s₀) (RelationTree.pathsFrom chain t) js
  | _, _, _, [], h, _ => by
    cases h
    exact .nil
  | s, chain, _, (k, n) :: t, h, hs => by
    rw [joinsOf] at h
    obtain ⟨relation, hrelation, h⟩ := bind_eq_ok.1 h
    obtain ⟨target, htarget, h⟩ := bind_eq_ok.1 h
    obtain ⟨below, hbelow, h⟩ := bind_eq_ok.1 h
    obtain ⟨rest, hrest, h⟩ := bind_eq_ok.1 h
    cases h
    obtain ⟨f, hf, hr⟩ := relationOf_eq_ok.1 hrelation
    have htarget' := Schema.shape_eq_ok.1 htarget
    have hrelated : σ.related? s k = some target :=
      Schema.related?_eq_some.2 ⟨f, relation, hf, hr, htarget'⟩
    have hfollow : σ.follow? s₀ (chain ++ [k]) = some target := by
      rw [Schema.follow?_append, hs, Option.bind_some, Schema.follow?_cons, hrelated]
      rfl
    rw [← pathOf_concat] at hbelow
    have hfirst : Join.Follows σ s₀ (chain ++ [k])
        ⟨pathBelow (pathOf chain) k, tableAt (pathOf chain), target, relation⟩ :=
      ⟨chain, k, s, rfl, hs, ⟨f, hf, hr⟩, htarget', (pathOf_concat chain k).symm, rfl⟩
    exact List.rel_append (.cons hfirst (joinsBelow_follow n hbelow hfollow))
      (joinsOf_follow t hrest hs)

end

end Joins

/-- The table is the one at the end of a chain from the shape `s`. It is called by the chain, and
the columns that it is joined on are those of the last relation: one of its own, and one of the
table that the relation starts from. -/
def JoinedTable.Reaches (σ : Schema) (s : Shape) (ks : List String) (j : JoinedTable) : Prop :=
  ∃ chain k t f r u, ks = chain ++ [k] ∧ σ.follow? s chain = some t ∧
    t.field? k = some f ∧ f.relation? = some r ∧ σ.shape? r.target = some u ∧
    j = ⟨⟨u.table, tableOf ks⟩, ⟨tableOf ks, r.foreignKey⟩, ⟨tableOf chain, r.localKey⟩⟩

theorem Join.Follows.reaches {σ : Schema} {s : Shape} {ks : List String} {j : Join}
    (h : j.Follows σ s ks) (hseg : ∀ k ∈ ks, IsSegment k) : j.read.Reaches σ s ks := by
  obtain ⟨chain, k, t, rfl, ht, ⟨f, hf, hr⟩, hshape, hpath, hparent⟩ := h
  have hchain : ∀ l ∈ chain, IsSegment l := fun l hl => hseg l (List.mem_append_left [k] hl)
  have hempty : "" ∉ chain ++ [k] := fun h => (hseg "" h).1 rfl
  have hne : chain ++ [k] ≠ [] := by simp
  have htable : j.table = tableOf (chain ++ [k]) := by
    rw [table, hpath, tableOf_of_ne_nil hne, (Leaf.pathOf_chain hempty).1]
  refine ⟨chain, k, t, f, j.relation, j.shape, rfl, ht, hf, hr, hshape, ?_⟩
  rw [read, htable, hparent, tableAt_pathOf hchain]

theorem Join.reaches_of_follows {σ : Schema} {s : Shape} {kss : List (List String)}
    {js : List Join} (h : List.Forall₂ (Join.Follows σ s) kss js)
    (hseg : ∀ ks ∈ kss, ∀ k ∈ ks, IsSegment k) :
    List.Forall₂ (JoinedTable.Reaches σ s) kss (js.map Join.read) := by
  rw [List.forall₂_map_right_iff]
  exact ((List.forall₂_and_left _ _).2 ⟨hseg, h⟩).imp fun ks j hj => hj.2.reaches hj.1

/-- The joins are called by the texts of their chains. -/
theorem Join.paths_of_follows {σ : Schema} {s : Shape} {kss : List (List String)} {js : List Join}
    (h : List.Forall₂ (Join.Follows σ s) kss js) (hnamed : ∀ ks ∈ kss, "" ∉ ks) :
    js.map Join.path = kss.map FieldPath.joinDots := by
  induction h with
  | nil => rfl
  | cons hj _ ih =>
    obtain ⟨hks, hkss⟩ := List.forall_mem_cons.1 hnamed
    obtain ⟨_, _, _, _, _, _, _, hpath, _⟩ := hj
    rw [List.map_cons, List.map_cons, ih hkss, hpath, (Leaf.pathOf_chain hks).1]

/-! ### Chains of conditions -/

section Declared

variable {σ σ' : Schema} {r : RelationTree}

mutual

theorem declared_of_testsOf : {s s' : Shape} → {ks : List String} → {k : String} →
    {ts : List Test} → (c : Condition) → testsOf σ r s (FieldPath.joinDots ks) k c = .ok ts →
    c.Fits σ' s' k → (∀ l ∈ ks, IsSegment l) → IsSegment k → r.containsPath ks = true →
    ∀ l ∈ c.leaves ks k, r.containsPath l.chain = true
  | _, _, _, _, _, .value _, _, _, _, _, hks, l, hl => by
    rw [Condition.leaves, List.mem_singleton] at hl
    rw [hl]
    exact hks
  | _, _, _, _, _, .op _, _, _, _, _, hks, l, hl => by
    rw [Condition.leaves, List.mem_singleton] at hl
    rw [hl]
    exact hks
  | _, _, ks, k, _, .nested t, h, ⟨_, _, _, ht⟩, hseg, hk, _, l, hl => by
    rw [testsOf] at h
    obtain ⟨_, _, h⟩ := bind_eq_ok.1 h
    obtain ⟨_, hdeclared, h⟩ := bind_eq_ok.1 h
    obtain ⟨_, _, h⟩ := bind_eq_ok.1 h
    rw [refuseIf_eq_ok, dotPieces_pathBelow hseg hk, Bool.not_eq_false] at hdeclared
    rw [pathBelow_joinDots hseg] at h
    have hseg' : ∀ l ∈ ks ++ [k], IsSegment l := by
      simpa only [List.forall_mem_append, List.forall_mem_singleton] using ⟨hseg, hk⟩
    exact declared_of_tests t h ht hseg' hdeclared l hl

/-- A tree is only tested if the chains to its leaves are declared. -/
theorem declared_of_tests : {s s' : Shape} → {ks : List String} → {ts : List Test} →
    (t : List (String × Condition)) → tests σ r s (FieldPath.joinDots ks) t = .ok ts →
    PredicateTree.Fits σ' s' t → (∀ l ∈ ks, IsSegment l) → r.containsPath ks = true →
    ∀ l ∈ PredicateTree.leavesBelow ks t, r.containsPath l.chain = true
  | _, _, _, _, [], _, _, _, _, _, hl => by cases hl
  | _, _, ks, _, (k, c) :: t, h, ⟨_, hk, hc, ht⟩, hseg, hks, l, hl => by
    rw [tests] at h
    obtain ⟨ts, hts, h⟩ := bind_eq_ok.1 h
    obtain ⟨ts', hts', _⟩ := bind_eq_ok.1 h
    rw [PredicateTree.leavesBelow, List.mem_append] at hl
    rcases hl with hl | hl
    · exact declared_of_testsOf c hts hc hseg hk hks l hl
    · exact declared_of_tests t hts' ht hseg hks l hl

end

theorem declared_of_whereOf {s s' : Shape} {p : Predicate} {w : Where}
    (h : whereOf σ r s p = .ok w) (hfits : ∀ t ∈ p.alternatives, PredicateTree.Fits σ' s' t) :
    ∀ l ∈ p.leaves, r.containsPath l.chain = true := by
  intro l hl
  obtain ⟨t, ht, hl⟩ := List.mem_flatMap.1 hl
  have htests : ∃ ts, tests σ r s (FieldPath.joinDots []) t = .ok ts := by
    cases p with
    | all u =>
      obtain ⟨ts, hts, _⟩ := bind_eq_ok.1 h
      rw [List.mem_singleton.1 ht]
      exact ⟨ts, hts⟩
    | any trees =>
      obtain ⟨tss, htss, _⟩ := bind_eq_ok.1 h
      exact exists_ok_of_mem_mapM htss t ht
  obtain ⟨ts, hts⟩ := htests
  exact declared_of_tests t hts (hfits t ht) nofun rfl l hl

end Declared

/-! ### Scope -/

/-- The tokens `ts` of a statement for `q` on the shape `s` introduce `root` and the tables `joins`,
and everything that they refer to is in scope. -/
structure WellScoped (σ : Schema) (s : Shape) (q : QuerySpec) (ts : List Token)
    (joins : List JoinedTable) : Prop where
  tables : readTables ts = some (⟨s.table, root⟩, joins)
  /-- The paths are the declared chains, each of them once. -/
  declared : q.relations.paths.Nodup ∧
    ∀ ks, ks ∈ q.relations.paths ↔ ks ≠ [] ∧ q.relations.containsPath ks = true
  /-- There is one join for each path, under the name of the path. -/
  reaches : List.Forall₂ (JoinedTable.Reaches σ s) q.relations.paths joins
  nodup : (root :: joins.map fun j => j.name).Nodup
  /-- A join compares its own table with one that is introduced before it. -/
  parents : ∀ before j after, joins = before ++ j :: after →
    j.own.table = j.name ∧ j.other.table ∈ root :: before.map fun j => j.name
  references : ∀ r ∈ references ts,
    ∃ name ∈ root :: joins.map (fun j => j.name), r.table = some name
  /-- The condition refers to the fields of the leaves, in the tables that their chains lead to. -/
  condition : Sql.references ((conditionOf ts).getD []) =
    (q.predicate.leaves.filter fun l => l.operator.readsColumn).map fun l =>
      ⟨some (tableOf l.chain), some l.field⟩
  leaves : ∀ l ∈ q.predicate.leaves, q.relations.containsPath l.chain = true ∧
    ∃ t, σ.follow? s l.chain = some t ∧ t.HasPlain l.field
  outputs : readOutputs ts = (if q.selection = [] then [none] else q.selection.map some) ++
    q.relations.paths.map fun ks => some (FieldPath.joinDots ks)
  distinct : q.selection ≠ [] → (readOutputs ts).Nodup

section WellScoped

variable {σ : Schema} {s : Shape}

theorem names_of_reaches {kss : List (List String)} {joins : List JoinedTable}
    (h : List.Forall₂ (JoinedTable.Reaches σ s) kss joins) :
    joins.map (fun j => j.name) = kss.map tableOf := by
  induction h with
  | nil => rfl
  | cons hj _ ih =>
    obtain ⟨_, _, _, _, _, _, rfl, _, _, _, _, rfl⟩ := hj
    rw [List.map_cons, List.map_cons, ih]

variable {r : RelationTree}

/-- The tables of declared chains have names of their own. -/
theorem nodup_tables (hr : r.WellFormed σ s) : (root :: r.paths.map tableOf).Nodup := by
  have hseg : ∀ ks ∈ r.paths, ∀ k ∈ ks, IsSegment k :=
    fun ks hks => hr.segmented.isSegment_of_mem_paths hr.ordered hks
  refine List.nodup_cons.2 ⟨fun hmem => ?_, ?_⟩
  · obtain ⟨ks, hks, hroot⟩ := List.mem_map.1 hmem
    rw [tableOf_of_ne_nil (RelationTree.ne_nil_of_mem_paths hr.ordered hks)] at hroot
    exact aliasOf_ne_root _ hroot
  · refine List.Nodup.map_on ?_ (RelationTree.nodup_paths hr.ordered)
    exact fun ks hks ls hls => tableOf_injective (hseg ks hks) (hseg ls hls)

/-- A join comes behind the join of the table that it is joined to. -/
theorem parent_mem_before (hr : r.WellFormed σ s) {joins : List JoinedTable}
    (h : List.Forall₂ (JoinedTable.Reaches σ s) r.paths joins) {before after : List JoinedTable}
    {j : JoinedTable} (hj : joins = before ++ j :: after) :
    j.own.table = j.name ∧ j.other.table ∈ root :: before.map fun j => j.name := by
  rw [hj] at h
  have hbefore := List.forall₂_take_append _ _ _ h
  have hrest := List.forall₂_drop_append _ _ _ h
  rw [List.forall₂_cons_right_iff] at hrest
  obtain ⟨ks, kss, hreaches, _, hdrop⟩ := hrest
  obtain ⟨chain, k, _, _, _, _, rfl, _, _, _, _, rfl⟩ := hreaches
  refine ⟨rfl, ?_⟩
  have hpaths : r.paths = r.paths.take before.length ++ (chain ++ [k]) :: kss := by
    rw [← hdrop, List.take_append_drop]
  rw [names_of_reaches hbefore]
  rcases RelationTree.mem_before_of_paths hr.ordered hpaths with hnil | hmem
  · rw [hnil]
    exact .head _
  · exact .tail _ (List.mem_map_of_mem (f := tableOf) hmem)

/-- A path of relations has another name than a plain field. -/
theorem joinDots_ne_of_hasPlain (hr : r.WellFormed σ s) {k : String} (hk : IsSegment k)
    (hplain : s.HasPlain k) {ks : List String} (hks : ks ∈ r.paths) :
    FieldPath.joinDots ks ≠ k := by
  intro heq
  obtain ⟨hne, hdeclared⟩ := (RelationTree.mem_paths r hr.ordered ks).1 hks
  have hseg := hr.segmented ks hdeclared
  have hsingle : ks = [k] := by
    refine joinDots_injective hne (by simp) hseg (by simpa using hk) ?_
    rw [heq, FieldPath.joinDots_singleton]
  obtain ⟨s', hs'⟩ := hr.fits.exists_follow? hdeclared
  rw [hsingle, Schema.follow?_cons, Option.bind_eq_some_iff] at hs'
  obtain ⟨t, ht, _⟩ := hs'
  obtain ⟨f, rel, hf, hrel, _⟩ := Schema.related?_eq_some.1 ht
  obtain ⟨f', hf', hplain⟩ := hplain
  rw [hf] at hf'
  cases hf'
  rw [Field.isRelation, hrel] at hplain
  cases hplain

/-- The outputs of the paths and of the selected fields have names of their own. -/
theorem nodup_outputs (hr : r.WellFormed σ s) {selection : List String}
    (hseg : ∀ k ∈ selection, IsSegment k) (hplain : ∀ k ∈ selection, s.HasPlain k)
    (hincreasing : selection.Pairwise (· < ·)) :
    (selection.map some ++ r.paths.map fun ks => some (FieldPath.joinDots ks)).Nodup := by
  have hselection : selection.Nodup := hincreasing.imp fun h => String.ne_of_lt h
  have hpaths : ∀ ks ∈ r.paths, ks ≠ [] ∧ ∀ k ∈ ks, IsSegment k := by
    intro ks hks
    exact ⟨RelationTree.ne_nil_of_mem_paths hr.ordered hks,
      hr.segmented.isSegment_of_mem_paths hr.ordered hks⟩
  refine List.nodup_append.2 ⟨?fields, ?paths, ?apart⟩
  case fields => exact hselection.map fun _ _ h => Option.some.inj h
  case paths =>
    refine List.Nodup.map_on ?_ (RelationTree.nodup_paths hr.ordered)
    intro ks hks ls hls h
    obtain ⟨hks, hkseg⟩ := hpaths ks hks
    obtain ⟨hls, hlseg⟩ := hpaths ls hls
    exact joinDots_injective hks hls hkseg hlseg (Option.some.inj h)
  case apart =>
    intro name hname name' hname' heq
    obtain ⟨k, hk, rfl⟩ := List.mem_map.1 hname
    obtain ⟨ks, hks, rfl⟩ := List.mem_map.1 hname'
    exact joinDots_ne_of_hasPlain hr (hseg k hk) (hplain k hk) hks (Option.some.inj heq).symm

theorem outputs_of_ofSpec {q : QuerySpec} {stmt : Select} (h : Select.ofSpec σ q = .ok stmt) :
    stmt.outputs = q.outputs stmt.joins := by
  obtain ⟨_, _, _, _, rfl⟩ := Select.ofSpec_eq_ok h
  rfl

theorem outputs_name? (q : QuerySpec) (js : List Join) :
    (q.outputs js).map Output.name? =
      (if q.selection = [] then [none] else q.selection.map some) ++
        js.map fun j => some j.path := by
  have hjoin (j : Join) : Output.name? ((if q.loadRelationIds then Output.keyOf else .rowOf) j) =
      some j.path := by
    split <;> rfl
  rw [QuerySpec.outputs, List.map_append, List.map_map]
  congr 1
  · cases q.selection with
    | nil => rfl
    | cons k ks => simp [Output.name?]
  · exact List.map_congr_left fun j _ => hjoin j

/-- What is referred to in outputs and joins are tables of joins, their parents, and `root`. -/
theorem references_outputs_joins (q : QuerySpec) (js : List Join) (names : List String)
    (hroot : root ∈ names) (hjoins : ∀ j ∈ js, j.table ∈ names ∧ j.parent ∈ names) :
    ∀ ref ∈ (q.outputs js).flatMap Output.references ++ js.flatMap Join.references,
      ∃ name ∈ names, ref.table = some name := by
  intro ref href
  rcases List.mem_append.1 href with href | href
  · obtain ⟨o, ho, href⟩ := List.mem_flatMap.1 href
    rcases List.mem_append.1 ho with ho | ho
    · have hown : ref.table = some root := by
        split at ho
        · rw [List.mem_singleton.1 ho] at href
          rw [List.mem_singleton.1 href]
          rfl
        · obtain ⟨k, _, rfl⟩ := List.mem_map.1 ho
          rw [List.mem_singleton.1 href]
          rfl
      exact ⟨root, hroot, hown⟩
    · obtain ⟨j, hj, rfl⟩ := List.mem_map.1 ho
      have htable : ref.table = some j.table := by
        split at href
        · rw [List.mem_singleton.1 href]
          rfl
        · rw [List.mem_singleton.1 href]
          rfl
      exact ⟨j.table, (hjoins j hj).1, htable⟩
  · obtain ⟨j, hj, href⟩ := List.mem_flatMap.1 href
    rcases List.mem_cons.1 href with rfl | href
    · exact ⟨j.table, (hjoins j hj).1, rfl⟩
    · rw [List.mem_singleton.1 href]
      exact ⟨j.parent, (hjoins j hj).2, rfl⟩

/-- The columns of the tests of leaves, each in the table that the chain of the leaf leads to. -/
theorem columns_of_leaves {ls : List Leaf} (h : ∀ l ∈ ls, ∀ k ∈ l.chain, IsSegment k) :
    (ls.map Leaf.test).flatMap (fun t => t.columns.map Column.reference) =
      (ls.filter fun l => l.operator.readsColumn).map fun l =>
        ⟨some (tableOf l.chain), some l.field⟩ := by
  induction ls with
  | nil => rfl
  | cons l ls ih =>
    obtain ⟨hl, hls⟩ := List.forall_mem_cons.1 h
    have hempty : "" ∉ l.chain := fun h => (hl "" h).1 rfl
    rw [List.map_cons, List.flatMap_cons, ih hls, Leaf.test, Test.columns_ofOperator,
      Leaf.column_eq hempty]
    by_cases hreads : l.operator.readsColumn = true
    · rw [if_pos hreads, List.filter_cons_of_pos (by simpa using hreads)]
      rfl
    · rw [if_neg hreads, List.filter_cons_of_neg (by simpa using hreads)]
      rfl

end WellScoped

end Sql

namespace Builder

open Sql

variable {σ : Schema} {b : Builder σ}

namespace WellFormed

theorem leaves (hb : b.WellFormed) : ∀ l ∈ b.spec.predicate.leaves, l.Fits σ b.shape := by
  intro l hl
  obtain ⟨t, ht, hl⟩ := List.mem_flatMap.1 hl
  exact PredicateTree.Fits.leavesBelow t (hb.alternatives t ht) (List.forall_mem_nil _) rfl l hl

theorem isSegment (hb : b.WellFormed) : ∀ ks ∈ b.spec.relations.paths, ∀ k ∈ ks, IsSegment k :=
  fun _ => hb.relations.segmented.isSegment_of_mem_paths hb.relations.ordered

section Statement

variable {stmt : Select} (hb : b.WellFormed) (h : Select.ofSpec σ b.spec = .ok stmt)

include hb h

/-- A statement is only made if the chains to all leaves are declared. -/
theorem declared : ∀ l ∈ b.spec.predicate.leaves, b.spec.relations.containsPath l.chain = true := by
  simp only [Select.ofSpec, bind_eq_ok] at h
  obtain ⟨_, _, _, _, _, _, _, hwhere, _⟩ := h
  exact declared_of_whereOf hwhere hb.alternatives

theorem follows : stmt.table = b.shape.table ∧
    List.Forall₂ (Join.Follows σ b.shape) b.spec.relations.paths stmt.joins := by
  obtain ⟨s, joins, hs, hjoins, rfl⟩ := Select.ofSpec_eq_ok h
  have hregistered := Schema.shape_eq_ok.1 hs
  rw [hb.entity, Option.some.injEq] at hregistered
  subst hregistered
  exact ⟨rfl, joinsOf_follow b.spec.relations hjoins rfl⟩

theorem reaches :
    List.Forall₂ (JoinedTable.Reaches σ b.shape) b.spec.relations.paths
      (stmt.joins.map Join.read) :=
  Join.reaches_of_follows (hb.follows h).2 hb.isSegment

/-- The table at the end of a declared chain is introduced. -/
theorem tableOf_mem {ks : List String} (hks : b.spec.relations.containsPath ks = true) :
    tableOf ks ∈ root :: (stmt.joins.map Join.read).map fun j => j.name := by
  rw [names_of_reaches (hb.reaches h)]
  by_cases hne : ks = []
  · rw [hne]
    exact .head _
  · have hmem := (RelationTree.mem_paths _ hb.relations.ordered ks).2 ⟨hne, hks⟩
    exact .tail _ (List.mem_map_of_mem (f := tableOf) hmem)

theorem tables_of_join {j : Join} (hj : j ∈ stmt.joins) :
    j.table ∈ root :: ((stmt.joins.map Join.read).map fun j => j.name) ∧
      j.parent ∈ root :: ((stmt.joins.map Join.read).map fun j => j.name) := by
  have hmem : j.read ∈ stmt.joins.map Join.read := List.mem_map_of_mem hj
  refine ⟨.tail _ (List.mem_map_of_mem (f := fun j => j.name) hmem), ?_⟩
  obtain ⟨before, after, hsplit⟩ := List.append_of_mem hmem
  have hparent := (parent_mem_before hb.relations (hb.reaches h) hsplit).2
  rw [hsplit, List.map_append]
  exact List.cons_subset_cons _ (List.subset_append_left _ _) hparent

theorem columns_of_tests :
    (stmt.condition.tests.flatMap fun t => t.columns.map Column.reference) =
      (b.spec.predicate.leaves.filter fun l => l.operator.readsColumn).map fun l =>
        ⟨some (tableOf l.chain), some l.field⟩ := by
  obtain ⟨_, _, _, _, rfl⟩ := Select.ofSpec_eq_ok h
  rw [Where.tests_ofPredicate]
  exact columns_of_leaves fun l hl => (hb.leaves l hl).segments

/-- Whatever a statement refers to belongs to a table that it introduces. -/
theorem references_mem {ts : List Token} (hts : lex stmt.text = some ts) :
    ∀ r ∈ references ts,
      ∃ name ∈ root :: (stmt.joins.map Join.read).map (fun j => j.name), r.table = some name := by
  intro r hr
  rw [stmt.references_eq hts, hb.columns_of_tests h, outputs_of_ofSpec h, List.append_assoc] at hr
  rcases List.mem_append.1 hr with hr | hr
  · exact references_outputs_joins b.spec stmt.joins _ (.head _)
      (fun j hj => hb.tables_of_join h hj) r hr
  · rcases List.mem_append.1 hr with hr | hr
    · obtain ⟨l, hl, rfl⟩ := List.mem_map.1 hr
      have hdeclared := hb.declared h l (List.mem_filter.1 hl).1
      exact ⟨_, hb.tableOf_mem h hdeclared, rfl⟩
    · obtain ⟨o, _, rfl⟩ := List.mem_map.1 hr
      exact ⟨root, .head _, rfl⟩

theorem readOutputs_eq {ts : List Token} (hts : lex stmt.text = some ts) :
    readOutputs ts = (if b.spec.selection = [] then [none] else b.spec.selection.map some) ++
      b.spec.relations.paths.map fun ks => some (FieldPath.joinDots ks) := by
  have hne : stmt.outputs ≠ [] := by
    rw [outputs_of_ofSpec h, QuerySpec.outputs]
    cases b.spec.selection <;> simp
  have hpaths := Join.paths_of_follows (hb.follows h).2 fun ks hks hempty =>
    (hb.isSegment ks hks "" hempty).1 rfl
  have houtputs : (stmt.joins.map fun j => some j.path) =
      b.spec.relations.paths.map fun ks => some (FieldPath.joinDots ks) := by
    simpa only [List.map_map, Function.comp_def] using congrArg (List.map some) hpaths
  rw [stmt.readOutputs_eq hts hne, outputs_of_ofSpec h, outputs_name?, houtputs]

end Statement

end WellFormed

/-- The statement for whatever a builder holds is well scoped, and there is a statement for whatever
comes out of directives on a root builder. -/
theorem wellScoped_of_reachable (hb : b.Reachable) :
    (∀ stmt, Select.ofSpec σ b.spec = .ok stmt →
      ∃ ts joins, lex stmt.text = some ts ∧ WellScoped σ b.shape b.spec ts joins) ∧
    ∀ entity b₀ ds, new σ entity = .ok b₀ → b₀.applyAll ds = .ok b →
      ∃ stmt, Select.ofSpec σ b.spec = .ok stmt := by
  have hwell := hb.wellFormed
  constructor
  · intro stmt h
    obtain ⟨ts, hts⟩ : ∃ ts, lex stmt.text = some ts := ⟨_, stmt.lex_text⟩
    have hreaches := hwell.reaches h
    have houtputs := hwell.readOutputs_eq h hts
    refine ⟨ts, stmt.joins.map Join.read, hts, ?_⟩
    exact
      { tables := by rw [stmt.readTables_eq hts, (hwell.follows h).1]
        declared := ⟨RelationTree.nodup_paths hwell.relations.ordered,
          RelationTree.mem_paths _ hwell.relations.ordered⟩
        reaches := hreaches
        nodup := names_of_reaches hreaches ▸ nodup_tables hwell.relations
        parents := fun before j after => parent_mem_before hwell.relations hreaches
        references := hwell.references_mem h hts
        condition := (stmt.references_condition hts).trans (hwell.columns_of_tests h)
        leaves := fun l hl => ⟨hwell.declared h l hl, (hwell.leaves l hl).field⟩
        outputs := houtputs
        distinct := fun hselection => by
          rw [houtputs, if_neg hselection]
          exact nodup_outputs hwell.relations hwell.segments hwell.names.selection
            hwell.increasing }
  · intro entity b₀ ds h₀ h
    exact exists_ofSpec hwell.entity hwell.relations.fits hwell.names.selection hwell.names.order
      fun t ht => ⟨hwell.alternatives t ht, alternatives_covered h₀ h ht⟩

/-- A team that is only joined within alternatives, and an author that is fetched besides. -/
theorem wellScoped_articles :
    ∃ b₀ b : Builder .articles, new .articles "Article" = .ok b₀ ∧
      b₀.applyAll
        [.shape (.fetchRelation ["author"]), .shape (.select "title"),
          .or [[.filter "author.team.name" (.eq (.string "core"))], [.filter "title" .notNull]],
          .shape (.sort .asc "title")] = .ok b ∧
      b.spec.relations.paths = [["author"], ["author", "team"]] ∧ b.Reachable ∧
      ∃ stmt ts joins, Select.ofSpec .articles b.spec = .ok stmt ∧ lex stmt.text = some ts ∧
        WellScoped .articles b.shape b.spec ts joins := by
  obtain ⟨b, hb, hpaths⟩ := exists_ok_of_any
    (x := new .articles "Article" >>= (·.applyAll
      [.shape (.fetchRelation ["author"]), .shape (.select "title"),
        .or [[.filter "author.team.name" (.eq (.string "core"))], [.filter "title" .notNull]],
        .shape (.sort .asc "title")]))
    (p := fun b => b.spec.relations.paths = [["author"], ["author", "team"]])
    (by decide +kernel)
  obtain ⟨b₀, h₀, h⟩ := bind_eq_ok.1 hb
  have hreachable : b.Reachable := (Reachable.new h₀).applyAll h
  obtain ⟨hscoped, hstmt⟩ := wellScoped_of_reachable hreachable
  obtain ⟨stmt, hstmt⟩ := hstmt _ _ _ h₀ h
  obtain ⟨ts, joins, hts, hwell⟩ := hscoped stmt hstmt
  exact ⟨b₀, b, h₀, h, of_decide_eq_true hpaths, hreachable, stmt, ts, joins, hstmt, hts, hwell⟩

end Builder

end RowQuery
