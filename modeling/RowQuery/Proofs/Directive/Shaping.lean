import RowQuery.Proofs.Builder.Run
import RowQuery.Proofs.Directive.Chains
import RowQuery.Proofs.Directive.Level

/-!
# Shaping steps among other directives

Shaping steps add no condition and have no place of their own, so a list says the same of the
predicate and keeps its discipline when they are left out, on its own level (`unshaped`) or inside
joins and branches as well (`Directive.bare`). All that is lost inside are the chains of relations
that are fetched there (`Directive.fetched`).
-/

namespace RowQuery

/-! ### The level of a list -/

/-- The directives of a list that are no shaping steps. -/
def unshaped (ds : List Directive) : List Directive := ds.filter (!·.isShaping)

/-- The list with its shaping steps moved behind all other directives. -/
def shapingLast (ds : List Directive) : List Directive := unshaped ds ++ ds.filter (·.isShaping)

def Directive.shaping? : Directive → Option Shaping
  | .shape step => some step
  | _ => none

/-- The shaping steps of a list. -/
def shapings (ds : List Directive) : List Shaping := ds.filterMap Directive.shaping?

section

variable {p : Place} {d : Directive} {ds : List Directive}

theorem unshaped_cons_of_isShaping (hd : d.isShaping = true) (ds : List Directive) :
    unshaped (d :: ds) = unshaped ds := by
  simp [unshaped, hd]

theorem unshaped_cons (hd : d.isShaping = false) (ds : List Directive) :
    unshaped (d :: ds) = d :: unshaped ds := by
  simp [unshaped, hd]

theorem unshaped_shapingLast (ds : List Directive) : unshaped (shapingLast ds) = unshaped ds := by
  simp [unshaped, shapingLast]

theorem perm_shapingLast (ds : List Directive) : (shapingLast ds).Perm ds := by
  have h := List.filter_append_perm (fun d => !Directive.isShaping d) ds
  simpa [shapingLast, unshaped] using h

theorem shapings_cons_of_not_isShaping (hd : d.isShaping = false) (ds : List Directive) :
    shapings (d :: ds) = shapings ds := by
  cases d with
  | shape step => cases hd
  | _ => rfl

/-- Moving the shaping steps does not change their order among themselves. -/
theorem shapings_shapingLast (ds : List Directive) : shapings (shapingLast ds) = shapings ds := by
  have hunshaped : shapings (unshaped ds) = [] := by
    refine List.filterMap_eq_nil_iff.2 fun d hd => ?_
    have hd : d.isShaping = false := by simpa [unshaped] using (List.mem_filter.1 hd).2
    cases d with
    | shape step => cases hd
    | _ => rfl
  have hshaping : shapings (ds.filter (·.isShaping)) = shapings ds := by
    rw [shapings, List.filterMap_filter]
    refine List.filterMap_congr fun d _ => ?_
    cases d <;> rfl
  rw [shapingLast, shapings, List.filterMap_append, ← shapings, ← shapings, hunshaped, hshaping,
    List.nil_append]

theorem Directive.conjoin_of_isShaping (hd : d.isShaping = true) (t : PredicateTree) :
    d.conjoin t = t := by
  cases d with
  | shape step => rfl
  | _ => cases hd

theorem outcome_unshaped (t : PredicateTree) (ds : List Directive) :
    outcome t (unshaped ds) = outcome t ds := by
  induction ds generalizing t with
  | nil => rfl
  | cons d ds ih =>
    cases d with
    | shape step =>
      rw [unshaped_cons_of_isShaping rfl, outcome_cons rfl, ih]
      rfl
    | or branches => rw [unshaped_cons rfl, outcome_or, outcome_or]
    | _ => rw [unshaped_cons rfl, outcome_cons rfl, outcome_cons rfl, ih]

theorem forall_mem_unshaped :
    (∀ e ∈ unshaped ds, e.isShaping = true) ↔ ∀ e ∈ ds, e.isShaping = true := by
  constructor
  · intro h e he
    by_contra hc
    exact hc (h e (List.mem_filter.2 ⟨he, by simpa using hc⟩))
  · exact fun h e he => h e (List.mem_of_mem_filter he)

/-- Shaping steps may stand anywhere. -/
theorem disciplined_unshaped : Disciplined p (unshaped ds) ↔ Disciplined p ds := by
  induction ds with
  | nil => rfl
  | cons d ds ih =>
    by_cases hd : d.isShaping = true
    · cases d with
      | shape step =>
        rw [unshaped_cons_of_isShaping rfl, ih, disciplined_cons]
        exact ⟨fun h => ⟨trivial, trivial, nofun, h⟩, fun h => h.2.2.2⟩
      | _ => cases hd
    · rw [unshaped_cons (by simpa using hd), disciplined_cons, disciplined_cons, ih,
        forall_mem_unshaped]

end

/-! ### Joins and branches -/

mutual

/-- The directive without the shaping steps in its joins and branches. -/
def Directive.bare : Directive → Directive
  | .join relation ds => .join relation (bareAll ds)
  | .or branches => .or (bareBranches branches)
  | .filter path f => .filter path f
  | .oneOf path vs => .oneOf path vs
  | .shape step => .shape step

/-- A list without shaping steps, on its own level and below. -/
def bareAll : List Directive → List Directive
  | [] => []
  | d :: ds => if d.isShaping then bareAll ds else d.bare :: bareAll ds

def bareBranches : List (List Directive) → List (List Directive)
  | [] => []
  | ds :: branches => bareAll ds :: bareBranches branches

end

mutual

/-- The chains of relations that are fetched inside a directive. -/
def Directive.fetched : Directive → List (List String)
  | .join relation ds => (fetchedAll ds).map (dotPieces relation ++ ·)
  | .or branches => fetchedIn branches
  | .filter _ _ | .oneOf _ _ | .shape _ => []

/-- The chains of relations that are fetched in a list and below. -/
def fetchedAll : List Directive → List (List String)
  | [] => []
  | d :: ds => (if d.isShaping then d.chains else d.fetched) ++ fetchedAll ds

def fetchedIn : List (List Directive) → List (List String)
  | [] => []
  | ds :: branches => fetchedAll ds ++ fetchedIn branches

end

theorem Directive.isShaping_bare (d : Directive) : d.bare.isShaping = d.isShaping := by
  cases d <;> rfl

theorem bareAll_eq_map (ds : List Directive) : bareAll ds = (unshaped ds).map Directive.bare := by
  induction ds with
  | nil => rfl
  | cons d ds ih =>
    rw [bareAll, ih]
    cases hd : d.isShaping with
    | true => rw [unshaped_cons_of_isShaping hd, if_pos rfl]
    | false => rw [unshaped_cons hd, if_neg (by simp), List.map_cons]

theorem bareBranches_eq_map (branches : List (List Directive)) :
    bareBranches branches = branches.map bareAll := by
  induction branches with
  | nil => rfl
  | cons ds branches ih => rw [bareBranches, ih, List.map_cons]

/-! ### Conditions -/

mutual

theorem Directive.conjoin_bare : (t : PredicateTree) → (d : Directive) →
    d.bare.conjoin t = d.conjoin t
  | _, .filter _ _ => rfl
  | _, .oneOf _ _ => rfl
  | _, .join relation ds => by
    rw [Directive.bare, Directive.conjoin, Directive.conjoin, conjoinAll_bareAll [] ds]
  | _, .or _ => rfl
  | _, .shape _ => rfl

theorem conjoinAll_bareAll : (t : PredicateTree) → (ds : List Directive) →
    t.conjoinAll (bareAll ds) = t.conjoinAll ds
  | _, [] => rfl
  | t, d :: ds => by
    rw [bareAll, PredicateTree.conjoinAll]
    cases hd : d.isShaping with
    | true =>
      rw [if_pos rfl, conjoinAll_bareAll t ds, Directive.conjoin_of_isShaping hd]
    | false =>
      rw [if_neg (by simp), PredicateTree.conjoinAll, d.conjoin_bare t, conjoinAll_bareAll _ ds]

end

mutual

theorem Directive.alternatives?_bare : (t : PredicateTree) → (d : Directive) →
    d.bare.alternatives? t = d.alternatives? t
  | t, .or branches => congrArg some (branchAlternatives_bareBranches t branches)
  | _, .filter _ _ => rfl
  | _, .oneOf _ _ => rfl
  | _, .join _ _ => rfl
  | _, .shape _ => rfl

theorem alternatives_bareAll : (t : PredicateTree) → (ds : List Directive) →
    alternatives t (bareAll ds) = alternatives t ds
  | _, [] => rfl
  | t, d :: ds => by
    rw [bareAll]
    cases hd : d.isShaping with
    | true =>
      rw [if_pos rfl, alternatives_bareAll t ds]
      cases d with
      | shape step => rfl
      | _ => cases hd
    | false =>
      rw [if_neg (by simp), alternatives, alternatives, d.alternatives?_bare t, d.conjoin_bare t,
        alternatives_bareAll _ ds]

theorem branchAlternatives_bareBranches : (t : PredicateTree) →
    (branches : List (List Directive)) →
    branchAlternatives t (bareBranches branches) = branchAlternatives t branches
  | _, [] => rfl
  | t, ds :: branches => by
    rw [bareBranches, branchAlternatives, branchAlternatives, alternatives_bareAll t ds,
      branchAlternatives_bareBranches t branches]

end

/-- A directive says the same of the predicate without the shaping steps inside. -/
theorem outcome_bare (t : PredicateTree) (d : Directive) : outcome t [d.bare] = outcome t [d] := by
  cases d with
  | or branches => rw [Directive.bare, outcome_or, outcome_or, branchAlternatives_bareBranches]
  | join relation ds => rw [outcome_cons rfl, outcome_cons rfl, Directive.conjoin_bare]
  | _ => rfl

/-! ### Discipline and validity -/

section

variable {p : Place} {d : Directive} {ds : List Directive}

theorem Directive.placed_bare : d.bare.Placed p ↔ d.Placed p := by
  cases d with
  | or branches => simp [Directive.bare, Directive.Placed, bareBranches_eq_map]
  | _ => rfl

theorem Directive.isClosing_bare (d : Directive) : d.bare.isClosing = d.isClosing := by
  cases d <;> rfl

theorem disciplined_map_bare (h : ∀ d ∈ ds, (d.bare.Inside ↔ d.Inside)) :
    Disciplined p (ds.map Directive.bare) ↔ Disciplined p ds := by
  induction ds with
  | nil => rfl
  | cons d ds ih =>
    obtain ⟨hd, hds⟩ := List.forall_mem_cons.1 h
    have hrest : (∀ e ∈ ds.map Directive.bare, e.isShaping = true) ↔
        ∀ e ∈ ds, e.isShaping = true := by
      simp [Directive.isShaping_bare]
    rw [List.map_cons, disciplined_cons, disciplined_cons, Directive.placed_bare, hd,
      Directive.isClosing_bare, hrest, ih hds]

theorem Directive.inside_bare (d : Directive) : d.bare.Inside ↔ d.Inside := by
  have level : ∀ {p ds}, (∀ d ∈ ds, (d.bare.Inside ↔ d.Inside)) →
      (Disciplined p (bareAll ds) ↔ Disciplined p ds) := by
    intro p ds h
    have hunshaped : ∀ d ∈ unshaped ds, (d.bare.Inside ↔ d.Inside) :=
      fun d hd => h d (List.mem_of_mem_filter hd)
    rw [bareAll_eq_map, disciplined_map_bare hunshaped, disciplined_unshaped]
  induction d using Directive.induction with
  | join relation ds hds => exact level hds
  | or branches hbranches =>
    rw [Directive.bare, bareBranches_eq_map, Directive.Inside, Directive.Inside]
    simp only [List.forall_mem_map]
    exact forall₂_congr fun ds hds => level (hbranches ds hds)
  | _ => rfl

theorem disciplined_bareAll : Disciplined p (bareAll ds) ↔ Disciplined p ds := by
  rw [bareAll_eq_map, disciplined_map_bare fun d _ => d.inside_bare, disciplined_unshaped]

end

mutual

theorem Directive.Valid.bare {σ : Schema} : {s : Shape} → (d : Directive) → d.Valid σ s →
    d.bare.Valid σ s
  | _, .filter _ _, h => h
  | _, .oneOf _ _, h => h
  | _, .join _ ds, ⟨t, ht, hds⟩ => ⟨t, ht, allValid_bareAll ds hds⟩
  | _, .or branches, h => branchesValid_bareBranches branches h
  | _, .shape _, h => h

theorem allValid_bareAll {σ : Schema} : {s : Shape} → (ds : List Directive) →
    Directive.AllValid σ s ds → Directive.AllValid σ s (bareAll ds)
  | _, [], _ => trivial
  | _, d :: ds, ⟨hd, hds⟩ => by
    rw [bareAll]
    split
    · exact allValid_bareAll ds hds
    · exact ⟨Directive.Valid.bare d hd, allValid_bareAll ds hds⟩

theorem branchesValid_bareBranches {σ : Schema} : {s : Shape} →
    (branches : List (List Directive)) → Directive.BranchesValid σ s branches →
    Directive.BranchesValid σ s (bareBranches branches)
  | _, [], _ => trivial
  | _, ds :: branches, ⟨hds, hbranches⟩ =>
    ⟨allValid_bareAll ds hds, branchesValid_bareBranches branches hbranches⟩

end

/-! ### Chains of relations -/

mutual

/-- The chains that a directive names are those that it names without the shaping steps inside, and
those that are fetched inside. -/
theorem Directive.mem_chains_bare : {c : List String} → (d : Directive) →
    (c ∈ d.chains ↔ c ∈ d.bare.chains ∨ c ∈ d.fetched)
  | c, .join relation ds => by
    simp only [Directive.bare, Directive.chains, Directive.fetched, List.mem_cons, List.mem_map,
      mem_chainsAll_bareAll ds, or_and_right, exists_or, or_assoc]
  | _, .or branches => mem_chainsOf_bareBranches branches
  | _, .filter _ _ => by simp [Directive.bare, Directive.fetched]
  | _, .oneOf _ _ => by simp [Directive.bare, Directive.fetched]
  | _, .shape _ => by simp [Directive.bare, Directive.fetched]

theorem mem_chainsAll_bareAll : {c : List String} → (ds : List Directive) →
    (c ∈ chainsAll ds ↔ c ∈ chainsAll (bareAll ds) ∨ c ∈ fetchedAll ds)
  | _, [] => by simp [chainsAll, bareAll, fetchedAll]
  | c, d :: ds => by
    rw [chainsAll, bareAll, fetchedAll, List.mem_append, mem_chainsAll_bareAll ds]
    split
    · rw [List.mem_append]
      exact or_left_comm
    · rw [chainsAll, List.mem_append, List.mem_append, d.mem_chains_bare]
      exact or_or_or_comm

theorem mem_chainsOf_bareBranches : {c : List String} → (branches : List (List Directive)) →
    (c ∈ chainsOf branches ↔ c ∈ chainsOf (bareBranches branches) ∨ c ∈ fetchedIn branches)
  | _, [] => by simp [chainsOf, bareBranches, fetchedIn]
  | _, ds :: branches => by
    rw [chainsOf, bareBranches, chainsOf, fetchedIn, List.mem_append, List.mem_append,
      List.mem_append, mem_chainsAll_bareAll ds, mem_chainsOf_bareBranches branches]
    exact or_or_or_comm

end

end RowQuery
