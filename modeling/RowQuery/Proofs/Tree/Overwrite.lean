import RowQuery.Proofs.Tree.Predicate

/-!
# Merging predicate trees, path by path

A leaf of the later tree stays, and nothing is left below it. A nested tree is merged into what the
earlier tree has at its place. Everywhere else the earlier tree stays as it is. A tree merged with
itself is therefore the same tree, and as long as no path ends at a leaf in one tree and at a nested
tree in another, it does not matter how three trees are grouped, nor in which order two of them come
that have the same leaves where both have one (`merge_pointwise`).
-/

namespace RowQuery

/-! ### Order of keys -/

mutual

/-- The keys increase at every depth. -/
def Condition.Ordered : Condition → Prop
  | .value _ => True
  | .op _ => True
  | .nested t => PredicateTree.Ordered t

def PredicateTree.Ordered : List (String × Condition) → Prop
  | [] => True
  | (k, c) :: t => (∀ e ∈ t, k < e.1) ∧ c.Ordered ∧ PredicateTree.Ordered t

end

namespace PredicateTree

variable {t u : PredicateTree} {k : String} {c : Condition}

theorem ordered_iff : Ordered t ↔ Keyed.Sorted t ∧ ∀ e ∈ t, e.2.Ordered := by
  induction t with
  | nil => simp [Ordered, Keyed.Sorted.nil]
  | cons e t ih =>
    obtain ⟨k, c⟩ := e
    simp only [Ordered, ih, Keyed.sorted_cons, List.forall_mem_cons]
    constructor
    · rintro ⟨hlt, hc, hs, ht⟩
      exact ⟨⟨hlt, hs⟩, hc, ht⟩
    · rintro ⟨⟨hlt, hs⟩, hc, ht⟩
      exact ⟨hlt, hc, hs, ht⟩

theorem Ordered.sorted (ht : Ordered t) : Keyed.Sorted t := (ordered_iff.1 ht).1

theorem Ordered.of_find? (ht : Ordered t) (h : Keyed.find? k t = some c) : c.Ordered :=
  (ordered_iff.1 ht).2 _ (Keyed.mem_of_find? h)

theorem Ordered.insert (ht : Ordered t) (hc : c.Ordered) (k : String) :
    Ordered (Keyed.insert k c t) := by
  obtain ⟨hs, hall⟩ := ordered_iff.1 ht
  refine ordered_iff.2 ⟨hs.insert k c, fun e he => ?_⟩
  rcases Keyed.mem_insert he with rfl | he
  · exact hc
  · exact hall e he

/-- Trees with the same keys, and the same under each of them, are the same. -/
theorem Ordered.ext (ht : Ordered t) (hu : Ordered u)
    (h : ∀ k, Keyed.find? k t = Keyed.find? k u) : t = u :=
  ht.sorted.ext hu.sorted h

end PredicateTree

mutual

theorem Condition.Ordered.writeOver : (new : Condition) → {old : Option Condition} →
    new.Ordered → (∀ o, old = some o → o.Ordered) → (new.writeOver old).Ordered
  | .value _, _, hn, _ => hn
  | .op _, _, hn, _ => hn
  | .nested _, none, hn, _ => hn
  | .nested _, some (.value _), hn, _ => hn
  | .nested _, some (.op _), hn, _ => hn
  | .nested source, some (.nested _), hn, ho => PredicateTree.Ordered.mergeInto source hn (ho _ rfl)

theorem PredicateTree.Ordered.mergeInto : (source : List (String × Condition)) →
    {target : PredicateTree} → PredicateTree.Ordered source → PredicateTree.Ordered target →
    PredicateTree.Ordered (PredicateTree.mergeInto source target)
  | [], _, _, ht => ht
  | (k, c) :: source, _, hs, ht =>
    PredicateTree.Ordered.mergeInto source hs.2.2
      (ht.insert (Condition.Ordered.writeOver c hs.2.1 fun _ ho => ht.of_find? ho) k)

end

theorem PredicateTree.Ordered.merge {t s : PredicateTree} (ht : Ordered t) (hs : Ordered s) :
    Ordered (t.merge s) :=
  Ordered.mergeInto s hs ht

/-! ### Paths -/

/-- What a chain of keys leads to from a condition. -/
def Condition.at? : List String → Condition → Option Condition
  | [], c => some c
  | k :: ks, .nested t => (Keyed.find? k t).bind (Condition.at? ks)
  | _ :: _, _ => none

namespace Condition

variable {c d : Condition} {p q : List String}

@[simp] theorem at?_nil (c : Condition) : c.at? [] = some c := by
  cases c <;> rfl

theorem at?_nested (k : String) (ks : List String) (t : PredicateTree) :
    (nested t).at? (k :: ks) = (Keyed.find? k t).bind (at? ks) := by
  rw [at?]

theorem at?_of_isLeaf (hc : c.isLeaf) (k : String) (ks : List String) :
    c.at? (k :: ks) = none := by
  cases c with
  | nested t => exact hc.elim
  | value v => rfl
  | op o => rfl

theorem at?_append (p q : List String) (c : Condition) :
    c.at? (p ++ q) = (c.at? p).bind (at? q) := by
  induction p generalizing c with
  | nil => rw [List.nil_append, at?_nil, Option.bind_some]
  | cons k p ih =>
    cases c with
    | nested t =>
      rw [List.cons_append, at?_nested, at?_nested, Option.bind_assoc]
      exact congrArg _ (funext ih)
    | value v => rfl
    | op o => rfl

end Condition

theorem PredicateTree.find?_eq_at? {p : List String} (hp : p ≠ []) (t : PredicateTree) :
    find? p t = (Condition.nested t).at? p := by
  induction p generalizing t with
  | nil => exact absurd rfl hp
  | cons k ks ih =>
    rw [Condition.at?_nested]
    cases ks with
    | nil =>
      show Keyed.find? k t = _
      cases Keyed.find? k t <;> rfl
    | cons k' ks =>
      have hks : k' :: ks ≠ [] := List.cons_ne_nil _ _
      rw [find?, Option.bind_assoc]
      · refine congrArg _ (funext fun c => ?_)
        cases c with
        | nested u => exact ih hks u
        | value v => rfl
        | op o => rfl
      · exact hks

theorem PredicateTree.ne_nil_of_find? {p : List String} {t : PredicateTree} {c : Condition}
    (h : find? p t = some c) : p ≠ [] := by
  rintro rfl
  cases h

/-! ### One path of a merge -/

namespace Condition

variable {new c : Condition} {old : Option Condition} {p q : List String}

/-- A leaf replaces whatever was there. -/
theorem writeOver_leaf (hc : c.isLeaf) (old : Option Condition) : c.writeOver old = c := by
  cases old with
  | none => exact writeOver_none c
  | some d => exact writeOver_of_isLeaf (.inl hc)

/-- What `new` has at a path is written over what was there. -/
theorem at?_writeOver_of_some (hnew : new.Ordered) (h : new.at? p = some c) :
    (new.writeOver old).at? p = some (c.writeOver (old.bind (at? p))) := by
  induction p generalizing new old with
  | nil =>
    obtain rfl : new = c := by simpa using h
    cases old <;> simp
  | cons k ks ih =>
    cases new with
    | value v => cases h
    | op o => cases h
    | nested s =>
      have hs : PredicateTree.Ordered s := hnew
      cases old with
      | none => rw [writeOver_none, h, Option.bind_none, writeOver_none]
      | some d =>
        cases d with
        | nested t =>
          have hmerge : (nested s).writeOver (some (nested t)) =
              nested (PredicateTree.merge t s) := rfl
          rw [at?_nested, Option.bind_eq_some_iff] at h
          obtain ⟨c', hc', h⟩ := h
          rw [hmerge, at?_nested, PredicateTree.find?_merge hs.sorted, hc', Option.bind_some,
            Option.bind_some, at?_nested]
          exact ih (hs.of_find? hc') h
        | value v => exact h.trans (congrArg some (writeOver_none c).symm)
        | op o => exact h.trans (congrArg some (writeOver_none c).symm)

/-- Nothing is left below a leaf. -/
theorem at?_writeOver_of_leaf (hnew : new.Ordered) (hc : c.isLeaf) (h : new.at? q = some c)
    (hqp : q <+: p) (hne : q ≠ p) : (new.writeOver old).at? p = none := by
  obtain ⟨r, rfl⟩ := hqp
  rw [at?_append, at?_writeOver_of_some hnew h, Option.bind_some, writeOver_leaf hc]
  cases r with
  | nil => exact absurd (List.append_nil q).symm hne
  | cons k ks => exact at?_of_isLeaf hc k ks

/-- What was there stays where `new` has nothing, neither at the path nor a leaf above it. -/
theorem at?_writeOver_of_none (hnew : new.Ordered) (h : new.at? p = none)
    (habove : ∀ q c, q <+: p → new.at? q = some c → ¬ c.isLeaf) :
    (new.writeOver old).at? p = old.bind (at? p) := by
  induction p generalizing new old with
  | nil => simp at h
  | cons k ks ih =>
    cases new with
    | value v => exact absurd trivial (habove [] _ List.nil_prefix rfl)
    | op o => exact absurd trivial (habove [] _ List.nil_prefix rfl)
    | nested s =>
      have hs : PredicateTree.Ordered s := hnew
      cases old with
      | none => rw [writeOver_none, h, Option.bind_none]
      | some d =>
        cases d with
        | value v => exact h
        | op o => exact h
        | nested t =>
          have hmerge : (nested s).writeOver (some (nested t)) =
              nested (PredicateTree.merge t s) := rfl
          rw [hmerge, at?_nested, Option.bind_some, at?_nested,
            PredicateTree.find?_merge hs.sorted]
          cases hc' : Keyed.find? k s with
          | none => rfl
          | some c' =>
            rw [at?_nested, hc', Option.bind_some] at h
            refine ih (hs.of_find? hc') h fun q c hq hqc => ?_
            refine habove (k :: q) c (List.cons_prefix_cons.2 ⟨rfl, hq⟩) ?_
            rw [at?_nested, hc', Option.bind_some, hqc]

end Condition

/-! ### Trees that meet in leaves or in trees only -/

namespace Condition

variable {R : Condition → Condition → Prop} {c d : Condition} {t u : PredicateTree} {k : String}

/-- What the two conditions have at the same path is related. -/
def Meets (R : Condition → Condition → Prop) (c d : Condition) : Prop :=
  ∀ p a b, c.at? p = some a → d.at? p = some b → R a b

/-- Both are leaves, or both are nested trees. -/
def SameKind (c d : Condition) : Prop := c.isLeaf ↔ d.isLeaf

def SameLeaf (c d : Condition) : Prop := c.isLeaf → d.isLeaf → c = d

theorem Meets.here (h : c.Meets R d) : R c d := h [] c d (at?_nil c) (at?_nil d)

theorem Meets.of_find? (h : (nested t).Meets R (nested u)) (hc : Keyed.find? k t = some c)
    (hd : Keyed.find? k u = some d) : c.Meets R d := by
  intro p a b ha hb
  refine h (k :: p) a b ?_ ?_
  · rw [at?_nested, hc, Option.bind_some, ha]
  · rw [at?_nested, hd, Option.bind_some, hb]

theorem meets_of_isLeaf (hc : c.isLeaf) (h : R c d) : c.Meets R d := by
  intro p a b ha hb
  cases p with
  | nil =>
    obtain rfl : c = a := by simpa using ha
    obtain rfl : d = b := by simpa using hb
    exact h
  | cons k ks =>
    rw [at?_of_isLeaf hc] at ha
    cases ha

theorem meets_nested (h : R (nested t) (nested u))
    (hmem : ∀ e ∈ t, ∀ e' ∈ u, e.1 = e'.1 → e.2.Meets R e'.2) : (nested t).Meets R (nested u) := by
  intro p a b ha hb
  cases p with
  | nil =>
    cases ha
    cases hb
    exact h
  | cons k ks =>
    rw [at?_nested, Option.bind_eq_some_iff] at ha hb
    obtain ⟨c, hc, ha⟩ := ha
    obtain ⟨d, hd, hb⟩ := hb
    exact hmem _ (Keyed.mem_of_find? hc) _ (Keyed.mem_of_find? hd) rfl ks a b ha hb

end Condition

namespace PredicateTree

variable {t u : PredicateTree}

/-- No path ends at a leaf in one tree and at a nested tree in the other. -/
def Aligned (t u : PredicateTree) : Prop :=
  ∀ p c d, find? p t = some c → find? p u = some d → c.SameKind d

/-- Where both trees have a leaf, it is the same. -/
def Agrees (t u : PredicateTree) : Prop :=
  ∀ p c d, find? p t = some c → find? p u = some d → c.SameLeaf d

theorem meets_nested_iff {R : Condition → Condition → Prop} (h : R (.nested t) (.nested u)) :
    (Condition.nested t).Meets R (.nested u) ↔
      ∀ p c d, find? p t = some c → find? p u = some d → R c d := by
  constructor
  · intro hmeets p c d hc hd
    rw [find?_eq_at? (ne_nil_of_find? hc)] at hc
    rw [find?_eq_at? (ne_nil_of_find? hd)] at hd
    exact hmeets p c d hc hd
  · intro hpaths p c d hc hd
    by_cases hp : p = []
    · rw [hp] at hc hd
      cases hc
      cases hd
      exact h
    · rw [← find?_eq_at? hp] at hc hd
      exact hpaths p c d hc hd

theorem aligned_iff_meets :
    Aligned t u ↔ (Condition.nested t).Meets Condition.SameKind (.nested u) :=
  (meets_nested_iff Iff.rfl).symm

theorem agrees_iff_meets :
    Agrees t u ↔ (Condition.nested t).Meets Condition.SameLeaf (.nested u) :=
  (meets_nested_iff fun hleaf => hleaf.elim).symm

end PredicateTree

/-! ### Induction over what stands under a key -/

mutual

theorem Condition.induction {P : Condition → Prop} (leaf : ∀ c, c.isLeaf → P c)
    (nested : ∀ t, (∀ e ∈ t, P e.2) → P (.nested t)) : ∀ c, P c
  | .value v => leaf (.value v) trivial
  | .op o => leaf (.op o) trivial
  | .nested t => nested t (PredicateTree.forall_mem_of_induction leaf nested t)

theorem PredicateTree.forall_mem_of_induction {P : Condition → Prop}
    (leaf : ∀ c, c.isLeaf → P c) (nested : ∀ t, (∀ e ∈ t, P e.2) → P (.nested t)) :
    ∀ t : List (String × Condition), ∀ e ∈ t, P e.2
  | [] => nofun
  | (_, c) :: t => List.forall_mem_cons.2
    ⟨Condition.induction leaf nested c, PredicateTree.forall_mem_of_induction leaf nested t⟩

end

/-! ### One place of a merge -/

namespace Condition

/-- What a merge leaves under a key, given what its two sides have there. -/
def overlay (old new : Option Condition) : Option Condition :=
  match new with
  | none => old
  | some c => some (c.writeOver old)

@[simp] theorem overlay_none (old : Option Condition) : overlay old none = old := rfl

@[simp] theorem none_overlay (new : Option Condition) : overlay none new = new := by
  cases new with
  | none => rfl
  | some c => exact congrArg some (writeOver_none c)

@[simp] theorem overlay_some (c d : Condition) :
    overlay (some c) (some d) = some (d.writeOver (some c)) := rfl

end Condition

namespace PredicateTree

theorem find?_merge_eq_overlay {t u : PredicateTree} (hu : Keyed.Sorted u) (k : String) :
    Keyed.find? k (t.merge u) = Condition.overlay (Keyed.find? k t) (Keyed.find? k u) := by
  rw [find?_merge hu]
  cases Keyed.find? k u <;> rfl

end PredicateTree

/-! ### The order of two sides, and the grouping of three -/

namespace Condition

theorem writeOver_self (c : Condition) : c.Ordered → c.writeOver (some c) = c := by
  induction c using Condition.induction with
  | leaf c hc => exact fun _ => writeOver_leaf hc _
  | nested t ih =>
    intro hc
    have ht : PredicateTree.Ordered t := hc
    show nested (PredicateTree.merge t t) = nested t
    congr 1
    refine (ht.merge ht).ext ht fun k => ?_
    rw [PredicateTree.find?_merge_eq_overlay ht.sorted]
    cases hx : Keyed.find? k t with
    | none => rfl
    | some x => exact congrArg some (ih _ (Keyed.mem_of_find? hx) (ht.of_find? hx))

/-- It does not matter which of two conditions comes first if they have the same leaves where both
have one. -/
theorem writeOver_comm (c : Condition) :
    ∀ d : Condition, c.Ordered → d.Ordered → c.Meets SameKind d → c.Meets SameLeaf d →
      d.writeOver (some c) = c.writeOver (some d) := by
  induction c using Condition.induction with
  | leaf c hc =>
    intro d _ _ haligned hagrees
    have hd : d.isLeaf := haligned.here.1 hc
    rw [hagrees.here hc hd]
  | nested t ih =>
    intro d hc hd haligned hagrees
    cases d with
    | value v => exact (haligned.here.2 trivial).elim
    | op o => exact (haligned.here.2 trivial).elim
    | nested u =>
      have ht : PredicateTree.Ordered t := hc
      have hu : PredicateTree.Ordered u := hd
      show nested (PredicateTree.merge t u) = nested (PredicateTree.merge u t)
      congr 1
      refine (ht.merge hu).ext (hu.merge ht) fun k => ?_
      rw [PredicateTree.find?_merge_eq_overlay hu.sorted,
        PredicateTree.find?_merge_eq_overlay ht.sorted]
      cases hx : Keyed.find? k t with
      | none => simp
      | some x =>
        cases hy : Keyed.find? k u with
        | none => simp
        | some y =>
          have hxy := ih _ (Keyed.mem_of_find? hx) y (ht.of_find? hx) (hu.of_find? hy)
            (haligned.of_find? hx hy) (hagrees.of_find? hx hy)
          exact congrArg some hxy

/-- It does not matter which two of three aligned conditions are merged first. -/
theorem writeOver_assoc (c : Condition) :
    ∀ d e : Condition, c.Ordered → d.Ordered → e.Ordered → c.Meets SameKind d →
      c.Meets SameKind e → d.Meets SameKind e →
      e.writeOver (some (d.writeOver (some c))) = (e.writeOver (some d)).writeOver (some c) := by
  induction c using Condition.induction with
  | leaf c hc =>
    intro d e _ _ _ _ hce _
    have he : e.isLeaf := hce.here.1 hc
    simp only [writeOver_leaf he]
  | nested t ih =>
    intro d e hc hd he hcd hce hde
    cases d with
    | value v => exact (hcd.here.2 trivial).elim
    | op o => exact (hcd.here.2 trivial).elim
    | nested u =>
      cases e with
      | value v => exact (hce.here.2 trivial).elim
      | op o => exact (hce.here.2 trivial).elim
      | nested v =>
        have ht : PredicateTree.Ordered t := hc
        have hu : PredicateTree.Ordered u := hd
        have hv : PredicateTree.Ordered v := he
        show nested (PredicateTree.merge (PredicateTree.merge t u) v) =
          nested (PredicateTree.merge t (PredicateTree.merge u v))
        congr 1
        refine ((ht.merge hu).merge hv).ext (ht.merge (hu.merge hv)) fun k => ?_
        rw [PredicateTree.find?_merge_eq_overlay hv.sorted,
          PredicateTree.find?_merge_eq_overlay hu.sorted,
          PredicateTree.find?_merge_eq_overlay (hu.merge hv).sorted,
          PredicateTree.find?_merge_eq_overlay hv.sorted]
        -- a side that has nothing under the key drops out
        cases hx : Keyed.find? k t with
        | none => simp
        | some x =>
          cases hy : Keyed.find? k u with
          | none => simp
          | some y =>
            cases hz : Keyed.find? k v with
            | none => simp
            | some z =>
              have hxyz := ih _ (Keyed.mem_of_find? hx) y z (ht.of_find? hx) (hu.of_find? hy)
                (hv.of_find? hz) (hcd.of_find? hx hy) (hce.of_find? hx hz) (hde.of_find? hy hz)
              exact congrArg some hxyz

end Condition

namespace PredicateTree

section Laws

variable {t s u : PredicateTree} (ht : Ordered t) (hs : Ordered s) (hu : Ordered u)

include ht

theorem merge_self : t.merge t = t :=
  Condition.nested.inj (Condition.writeOver_self (.nested t) ht)

include hs

theorem merge_comm (haligned : Aligned t s) (hagrees : Agrees t s) : t.merge s = s.merge t :=
  Condition.nested.inj
    (Condition.writeOver_comm (.nested t) (.nested s) ht hs (aligned_iff_meets.1 haligned)
      (agrees_iff_meets.1 hagrees))

include hu

theorem merge_assoc (hts : Aligned t s) (htu : Aligned t u) (hsu : Aligned s u) :
    (t.merge s).merge u = t.merge (s.merge u) :=
  Condition.nested.inj
    (Condition.writeOver_assoc (.nested t) (.nested s) (.nested u) ht hs hu
      (aligned_iff_meets.1 hts) (aligned_iff_meets.1 htu) (aligned_iff_meets.1 hsu))

end Laws

/-! ### Merging path by path -/

section Paths

variable {t s s' : PredicateTree} {p q : List String} {c : Condition} (hs : Ordered s)

theorem at?_of_find? (h : find? p s = some c) : (Condition.nested s).at? p = some c := by
  rw [← find?_eq_at? (ne_nil_of_find? h), h]

theorem nested_merge : Condition.nested (t.merge s) =
    (Condition.nested s).writeOver (some (.nested t)) := rfl

include hs

/-- What the later tree has at a path is written over what the earlier one has there. -/
theorem find?_merge_of_some (h : find? p s = some c) :
    find? p (t.merge s) = some (c.writeOver (find? p t)) := by
  have hordered : (Condition.nested s).Ordered := hs
  rw [find?_eq_at? (ne_nil_of_find? h), find?_eq_at? (ne_nil_of_find? h) t, nested_merge]
  exact Condition.at?_writeOver_of_some hordered (at?_of_find? h)

theorem find?_merge_of_leaf_above (hc : c.isLeaf) (h : find? q s = some c) (hqp : q <+: p)
    (hne : q ≠ p) : find? p (t.merge s) = none := by
  have hp : p ≠ [] := by
    rintro rfl
    exact hne (List.prefix_nil.1 hqp)
  have hordered : (Condition.nested s).Ordered := hs
  rw [find?_eq_at? hp, nested_merge]
  exact Condition.at?_writeOver_of_leaf hordered hc (at?_of_find? h) hqp hne

/-- Where the later tree has nothing, the earlier one stays. -/
theorem find?_merge_of_none (h : find? p s = none)
    (habove : ∀ q c, q <+: p → find? q s = some c → ¬ c.isLeaf) :
    find? p (t.merge s) = find? p t := by
  by_cases hp : p = []
  · rw [hp]
    rfl
  · have hordered : (Condition.nested s).Ordered := hs
    rw [find?_eq_at? hp] at h ⊢
    rw [find?_eq_at? hp, nested_merge]
    refine Condition.at?_writeOver_of_none hordered h fun q c hq hc => ?_
    by_cases hnil : q = []
    · rw [hnil] at hc
      cases hc
      exact id
    · rw [← find?_eq_at? hnil] at hc
      exact habove q c hq hc

end Paths

/-- What a merge has at a path: the leaf of the later tree, nothing below such a leaf, both nested
trees merged or the later one alone, and in every other case what the earlier tree has. A tree
merged with itself stays as it is. Three trees may be grouped either way if no path ends at a leaf
in one and at a nested tree in another, and two such trees may change places if they have the same
leaves where both have one. -/
theorem merge_pointwise {t s u : PredicateTree} (ht : Ordered t) (hs : Ordered s)
    (hu : Ordered u) :
    (∀ p,
      (∀ c, c.isLeaf → find? p s = some c → find? p (t.merge s) = some c) ∧
      (∀ q c, q <+: p → q ≠ p → c.isLeaf → find? q s = some c → find? p (t.merge s) = none) ∧
      (∀ s' : PredicateTree, find? p s = some (.nested s') →
        (∀ t' : PredicateTree, find? p t = some (.nested t') →
          find? p (t.merge s) = some (.nested (t'.merge s'))) ∧
        ((∀ t', find? p t ≠ some (.nested t')) → find? p (t.merge s) = some (.nested s'))) ∧
      (find? p s = none → (∀ q c, q <+: p → find? q s = some c → ¬ c.isLeaf) →
        find? p (t.merge s) = find? p t)) ∧
    t.merge t = t ∧
    (Aligned t s → Aligned t u → Aligned s u → (t.merge s).merge u = t.merge (s.merge u)) ∧
    (Aligned t s → Agrees t s → t.merge s = s.merge t) := by
  refine ⟨fun p => ⟨?leaf, ?below, ?nested, find?_merge_of_none hs⟩, merge_self ht,
    merge_assoc ht hs hu, merge_comm ht hs⟩
  case leaf =>
    intro c hc h
    rw [find?_merge_of_some hs h, Condition.writeOver_leaf hc]
  case below => exact fun q c hqp hne hc h => find?_merge_of_leaf_above hs hc h hqp hne
  case nested =>
    intro s' h
    rw [find?_merge_of_some hs h]
    constructor
    · intro t' ht'
      rw [ht']
      rfl
    · intro hnone
      cases hold : find? p t with
      | none => rw [Condition.writeOver_none]
      | some d =>
        cases d with
        | nested t' => exact absurd hold (hnone t')
        | value v => rfl
        | op o => rfl

/-- Two trees with conditions on one author, of which one goes on to an empty tree, and a later
condition on the title. -/
theorem merge_pointwise_articles :
    let t : PredicateTree := [("author", .nested [("name", .value (.string "Ada"))]),
      ("title", .value (.string "a"))]
    let s : PredicateTree := [("author", .nested [("name", .value (.string "Ada")),
      ("team", .nested [])])]
    let u : PredicateTree := [("title", .op .isNull)]
    find? ["author", "team"] (t.merge s) = some (.nested []) ∧ t.merge t = t ∧
      (t.merge s).merge u = t.merge (s.merge u) ∧ t.merge s = s.merge t := by
  intro t s u
  have hlt : "author" < "title" := by decide +kernel
  have hlt' : "name" < "team" := by decide +kernel
  have ht : Ordered t := by
    simp only [t, Ordered, Condition.Ordered, List.forall_mem_singleton, hlt]
    simp
  have hs : Ordered s := by
    simp only [s, Ordered, Condition.Ordered, List.forall_mem_singleton, hlt']
    simp
  have hu : Ordered u := by simp [u, Ordered, Condition.Ordered]
  let name : Condition := .value (.string "Ada")
  have hleaf : name.isLeaf := trivial
  have hts : Aligned t s := by
    refine aligned_iff_meets.2 (Condition.meets_nested Iff.rfl ?_)
    simpa [t, s] using Condition.meets_nested Iff.rfl
      (by simpa using Condition.meets_of_isLeaf hleaf Iff.rfl)
  have htu : Aligned t u := by
    refine aligned_iff_meets.2 (Condition.meets_nested Iff.rfl ?_)
    have htitle : (Condition.value (.string "a")).isLeaf := trivial
    simpa [t, u] using Condition.meets_of_isLeaf htitle Iff.rfl
  have hsu : Aligned s u :=
    aligned_iff_meets.2 (Condition.meets_nested Iff.rfl (by simp [s, u]))
  have hagrees : Agrees t s := by
    refine agrees_iff_meets.2 (Condition.meets_nested (fun h => h.elim) ?_)
    simpa [t, s] using Condition.meets_nested (fun h => h.elim)
      (by simpa using Condition.meets_of_isLeaf hleaf fun _ _ => rfl)
  obtain ⟨hpaths, hself, hassoc, hcomm⟩ := merge_pointwise ht hs hu
  exact ⟨((hpaths ["author", "team"]).2.2.1 [] rfl).2 nofun, hself, hassoc hts htu hsu,
    hcomm hts hagrees⟩

-- Where a leaf and trees meet, the grouping matters: the leaf in the middle removes the tree before
-- it, or makes room for the tree after it first.
example :
    let t : PredicateTree := [("author", .nested [("name", .op .isNull)])]
    let s : PredicateTree := [("author", .op .isNull)]
    let u : PredicateTree := [("author", .nested [("team", .op .isNull)])]
    (leaf? ["author", "name"] ((t.merge s).merge u)).isSome = false ∧
      (leaf? ["author", "name"] (t.merge (s.merge u))).isSome = true := by
  decide +kernel

end PredicateTree

end RowQuery
