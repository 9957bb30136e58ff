import RowQuery.Proofs.Document.Order
import RowQuery.Proofs.Keyed

/-!
# The rows of a query

The rows are a window of one list, each reduced to the selected fields: the documents that satisfy
the filter, sorted so that ties stay in the order they came in. That list is determined by the sort
keys (`IsStableSort.unique`), and the selected fields by the documents (`project_eq_iff`), so the
selection has no part in which documents are taken (`rows_eq_window`).
-/

namespace RowQuery

namespace Json

variable (k name : String) (j : Json) (members : List (String × Json))

theorem member?_mkObj_nil : (mkObj []).member? k = none := rfl

theorem member?_mkObj_cons :
    (mkObj ((name, j) :: members)).member? k =
      ((mkObj members).member? k).or (if k = name then some j else none) :=
  Keyed.find?_ofList_cons k (name, j) members

end Json

namespace Document

/-! ### Stable sorting -/

section

variable {α : Type} (cmp : α → α → Ordering) {xs ys zs : List α} {a b : α}

/-- The members of a list that no comparison tells apart from `a`. -/
def ties (a : α) (xs : List α) : List α := xs.filter (cmp a · == .eq)

/-- A list is another one put in order, with its ties where they were. -/
structure IsStableSort (xs ys : List α) : Prop where
  perm : ys.Perm xs
  sorted : ys.Pairwise fun a b => (cmp a b).isLE = true
  stable : ∀ a, ties cmp a ys = ties cmp a xs

variable {cmp} [Std.TransCmp cmp]

omit [Std.TransCmp cmp] in
theorem ties_cons_of_eq (h : cmp a b = .eq) : ties cmp a (b :: xs) = b :: ties cmp a xs :=
  List.filter_cons_of_pos (beq_iff_eq.2 h)

omit [Std.TransCmp cmp] in
theorem ties_cons_of_ne (h : cmp a b ≠ .eq) : ties cmp a (b :: xs) = ties cmp a xs :=
  List.filter_cons_of_neg fun htie => h (beq_iff_eq.1 htie)

theorem mem_iff_of_ties (h : ∀ a, ties cmp a ys = ties cmp a zs) : a ∈ ys ↔ a ∈ zs := by
  have hself : cmp a a = .eq := Std.ReflCmp.compare_self
  have hmem (xs : List α) : a ∈ ties cmp a xs ↔ a ∈ xs := by simp [ties, hself]
  rw [← hmem, h, hmem]

/-- The first of a sorted list is not after any member. -/
theorem isLE_of_mem_of_sorted (h : (a :: xs).Pairwise fun a b => (cmp a b).isLE = true)
    (hb : b ∈ a :: xs) : (cmp a b).isLE = true := by
  rcases List.mem_cons.1 hb with rfl | hb
  · have hself : cmp b b = .eq := Std.ReflCmp.compare_self
    rw [hself]
    rfl
  · exact List.rel_of_pairwise_cons h hb

/-- Sorted lists with the same ties are equal. -/
theorem eq_of_sorted_of_ties (hy : ys.Pairwise fun a b => (cmp a b).isLE = true)
    (hz : zs.Pairwise fun a b => (cmp a b).isLE = true)
    (h : ∀ a, ties cmp a ys = ties cmp a zs) : ys = zs := by
  induction ys generalizing zs with
  | nil =>
    cases zs with
    | nil => rfl
    | cons z zs => exact absurd ((mem_iff_of_ties h).2 List.mem_cons_self) List.not_mem_nil
  | cons y ys ih =>
    cases zs with
    | nil => exact absurd ((mem_iff_of_ties h).1 List.mem_cons_self) List.not_mem_nil
    | cons z zs =>
      -- each head is a member of the other list, so they tie; so each is the other's first tie
      have htie : cmp y z = .eq := Std.OrientedCmp.isLE_antisymm
        (isLE_of_mem_of_sorted hy ((mem_iff_of_ties h).2 List.mem_cons_self))
        (isLE_of_mem_of_sorted hz ((mem_iff_of_ties h).1 List.mem_cons_self))
      have hself : cmp y y = .eq := Std.ReflCmp.compare_self
      have hhead := h y
      rw [ties_cons_of_eq hself, ties_cons_of_eq htie] at hhead
      obtain rfl : y = z := (List.cons.inj hhead).1
      have htail (a : α) : ties cmp a ys = ties cmp a zs := by
        have ha := h a
        by_cases hay : cmp a y = .eq
        · rw [ties_cons_of_eq hay, ties_cons_of_eq hay] at ha
          exact (List.cons.inj ha).2
        · rwa [ties_cons_of_ne hay, ties_cons_of_ne hay] at ha
      exact congrArg (List.cons y) (ih hy.tail hz.tail htail)

theorem IsStableSort.unique (hy : IsStableSort cmp xs ys) (hz : IsStableSort cmp xs zs) :
    ys = zs :=
  eq_of_sorted_of_ties hy.sorted hz.sorted fun a => (hy.stable a).trans (hz.stable a).symm

theorem isStableSort_mergeSort (xs : List α) :
    IsStableSort cmp xs (xs.mergeSort fun a b => (cmp a b).isLE) := by
  have htrans (a b c : α) : (cmp a b).isLE = true → (cmp b c).isLE = true →
      (cmp a c).isLE = true := Std.TransCmp.isLE_trans
  have htotal (a b : α) : ((cmp a b).isLE || (cmp b a).isLE) = true := by
    have hswap : cmp b a = (cmp a b).swap := Std.OrientedCmp.eq_swap
    rw [hswap]
    cases cmp a b <;> rfl
  have hperm := List.mergeSort_perm xs fun a b => (cmp a b).isLE
  refine ⟨hperm, List.pairwise_mergeSort htrans htotal xs, fun a => ?_⟩
  -- the ties of `a` are in order among themselves, so sorting keeps them as they stand
  have hsorted : (ties cmp a xs).Pairwise fun b c => (cmp b c).isLE = true := by
    refine List.pairwise_of_forall_mem_list fun b hb c hc => ?_
    have hab := beq_iff_eq.1 (List.mem_filter.1 hb).2
    have hac := beq_iff_eq.1 (List.mem_filter.1 hc).2
    rw [← Std.TransCmp.congr_left hab, hac]
    rfl
  have hsublist : (ties cmp a xs).Sublist
      (ties cmp a (xs.mergeSort fun a b => (cmp a b).isLE)) := by
    have hties := (List.sublist_mergeSort htrans htotal hsorted List.filter_sublist).filter
      (cmp a · == .eq)
    simpa only [ties, List.filter_filter, Bool.and_self] using hties
  exact (hsublist.eq_of_length (hperm.filter _).length_eq.symm).symm

end

/-! ### Reduced documents -/

/-- A row has of a document the fields that are selected, or all of it if none are. -/
def Reduced (select : List String) (doc row : Json) : Prop :=
  if select = [] then row = doc
  else ∃ members, row = .obj members ∧ Keyed.Sorted members ∧
    ∀ name, Keyed.find? name members = if name ∈ select then doc.member? name else none

theorem member?_selected (select : List String) (doc : Json) (name : String) :
    (Json.mkObj (select.filterMap fun name => (doc.member? name).map (name, ·))).member? name =
      if name ∈ select then doc.member? name else none := by
  induction select with
  | nil => rfl
  | cons other select ih =>
    cases hother : doc.member? other with
    | none =>
      rw [List.filterMap_cons_none (by rw [hother]; rfl), ih]
      by_cases hname : name = other
      · subst hname
        simp [hother]
      · simp [hname]
    | some value =>
      rw [List.filterMap_cons_some (by rw [hother]; rfl), Json.member?_mkObj_cons, ih]
      by_cases hname : name = other
      · subst hname
        rw [hother, if_pos rfl, if_pos List.mem_cons_self]
        split <;> rfl
      · simp [hname]

/-- What is left of a document is determined by the selection. -/
theorem project_eq_iff {select : List String} {doc row : Json} :
    project select doc = row ↔ Reduced select doc row := by
  rw [project, Reduced]
  by_cases hselect : select = []
  · rw [if_pos (List.isEmpty_iff.2 hselect), if_pos hselect]
    exact eq_comm
  · rw [if_neg fun h => hselect (List.isEmpty_iff.1 h), if_neg hselect]
    constructor
    · rintro rfl
      exact ⟨_, rfl, Keyed.Sorted.ofList _, member?_selected select doc⟩
    · rintro ⟨members, rfl, hsorted, hfind⟩
      refine congrArg Json.obj ((Keyed.Sorted.ofList _).ext hsorted fun name => ?_)
      exact (member?_selected select doc name).trans (hfind name).symm

/-! ### Windows -/

namespace Query

variable {α : Type} (q : Query)

/-- The query for the whole documents that are meant, all of them. -/
def whole : Query := { q with select := [], offset := none, limit := none }

/-- A window is a stretch of the list from the offset on, of as many rows as the limit allows. -/
theorem getElem?_window (rows : List α) (i : Nat) :
    (q.window rows)[i]? =
      if q.limit.all (i < ·.toNat) then rows[(q.offset.getD 0).toNat + i]? else none := by
  rw [window]
  cases q.limit with
  | none => simp
  | some n => simp [List.getElem?_take]

theorem window_sublist (rows : List α) : (q.window rows).Sublist rows := by
  rw [window]
  cases q.limit with
  | none => exact List.drop_sublist _ _
  | some n => exact (List.take_sublist _ _).trans (List.drop_sublist _ _)

/-- The documents that a query is about are sorted by its keys, with ties as they came in. -/
theorem isStableSort_matching (docs : List Json) :
    IsStableSort (compareBy q.order) (docs.filter q.isMet) (q.matching docs) :=
  isStableSort_mergeSort _

end Query

section

variable (store : Store) (q : Query)

theorem rows_whole : store.rows q.whole = q.matching (store.documents q.collection) := by
  have hrows : store.rows q.whole = (q.matching (store.documents q.collection)).map id := rfl
  rw [hrows, List.map_id]

theorem rows_select (select : List String) :
    store.rows { q with select := select } =
      (q.window (store.rows q.whole)).map (project select) := by
  rw [rows_whole]
  rfl

theorem rows_of_select_nil (h : q.select = []) : store.rows q = q.window (store.rows q.whole) := by
  have hrows := rows_select store q q.select
  have hwhole : project [] = id := rfl
  rwa [h, hwhole, List.map_id, ← h] at hrows

/-- Sort keys that compare documents alike lead to the same rows. -/
theorem rows_congr_order {order order' : List OrderBy} (h : compareBy order = compareBy order') :
    store.rows { q with order := order } = store.rows { q with order := order' } := by
  simp only [Store.rows, Query.answer, Query.matching, h]
  rfl

/-- Rows that are kept whole are in the order of the first sort key. -/
theorem pairwise_compareAt_rows {o : OrderBy} {order : List OrderBy} (h : q.select = [])
    (horder : q.order = o :: order) :
    (store.rows q).Pairwise fun x y => (compareAt o x y).isLE = true := by
  have hsorted := (q.isStableSort_matching (store.documents q.collection)).sorted
  rw [rows_of_select_nil store q h, rows_whole]
  refine (hsorted.sublist (q.window_sublist _)).imp fun {x y} hxy => ?_
  rw [horder, compareBy_cons, compareLex] at hxy
  exact Ordering.isLE_left_of_isLE_then hxy

end

/-- The rows are a window of the documents that satisfy the filter, sorted by the keys with ties as
they came in, each reduced to the selected fields. -/
theorem rows_eq_window (store : Store) (q : Query) :
    (Std.TransCmp (compareBy q.order) ∧ Equivalence fun a b => compareBy q.order a b = .eq) ∧
      (∀ docs, store.rows q.whole = docs ↔
        IsStableSort (compareBy q.order) ((store.documents q.collection).filter q.isMet) docs) ∧
      (∀ i, (store.rows q)[i]? =
        if q.limit.all (i < ·.toNat) then
          (store.rows q.whole)[(q.offset.getD 0).toNat + i]?.map (project q.select)
        else none) ∧
      (∀ doc row, project q.select doc = row ↔ Reduced q.select doc row) ∧
      ∀ select, store.rows { q with select := select } =
        (store.rows { q with select := [] }).map (project select) := by
  have hsort : IsStableSort (compareBy q.order) ((store.documents q.collection).filter q.isMet)
      (store.rows q.whole) := rows_whole store q ▸ q.isStableSort_matching _
  refine ⟨⟨transCmp_compareBy q.order, ?_⟩, fun docs => ?_, fun i => ?_,
    fun _ _ => project_eq_iff, fun select => ?_⟩
  · exact {
      refl := fun _ => Std.ReflCmp.compare_self
      symm := Std.OrientedCmp.eq_symm
      trans := Std.TransCmp.eq_trans }
  · exact ⟨fun h => h ▸ hsort, hsort.unique⟩
  · have hrows := rows_select store q q.select
    rw [hrows, List.getElem?_map, Query.getElem?_window]
    split <;> rfl
  · rw [rows_select, rows_of_select_nil store { q with select := [] } rfl]
    rfl

end Document

end RowQuery
