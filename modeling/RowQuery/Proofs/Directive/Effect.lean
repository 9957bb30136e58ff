import RowQuery.Builder
import RowQuery.Proofs.Tree.Coverage

/-!
# What directives say

What a list of directives makes of a conjunction and of the declared relations, without a builder
that checks them. `alternatives` distributes a conjunction over nested branches; it is the image of
`conjoinAll` over the ways to choose one branch everywhere (`alternatives_eq_map`).
-/

namespace RowQuery

/-! ### Induction on directives -/

/-- Induction on a directive: a property of all directives inside passes to the one around them. -/
theorem Directive.induction {P : Directive → Prop} (filter : ∀ path f, P (.filter path f))
    (oneOf : ∀ path vs, P (.oneOf path vs))
    (join : ∀ relation ds, (∀ d ∈ ds, P d) → P (.join relation ds))
    (or : ∀ branches, (∀ ds ∈ branches, ∀ d ∈ ds, P d) → P (.or branches))
    (shape : ∀ step, P (.shape step)) (d : Directive) : P d := by
  let All (ds : List Directive) : Prop := ∀ d ∈ ds, P d
  let AllIn (branches : List (List Directive)) : Prop := ∀ ds ∈ branches, All ds
  have cons : ∀ d ds, P d → All ds → All (d :: ds) :=
    fun _ _ hd hds => List.forall_mem_cons.2 ⟨hd, hds⟩
  have consIn : ∀ ds branches, All ds → AllIn branches → AllIn (ds :: branches) :=
    fun _ _ hds hbranches => List.forall_mem_cons.2 ⟨hds, hbranches⟩
  exact @Directive.rec P All AllIn filter oneOf join or shape nofun cons nofun consIn d

/-! ### Filters -/

/-- The condition that a filter adds, if any. -/
def Filter.added? (f : Filter) : Option Condition :=
  match f.condition? with
  | .ok c => c
  | .error _ => none

theorem Filter.added?_of_condition? {f : Filter} {c : Option Condition}
    (h : f.condition? = .ok c) : f.added? = c := by
  rw [added?, h]

theorem Filter.isLeaf_of_added? {f : Filter} {c : Condition} (h : f.added? = some c) :
    c.isLeaf := by
  cases f with
  | eq v => cases h; split <;> trivial
  | ne v => cases h; trivial
  | compare cmp v =>
    simp only [added?, condition?] at h
    split at h <;> cases h
    trivial
  | between low high =>
    simp only [added?, condition?] at h
    split at h <;> cases h <;> trivial
  | pattern kind ignoreCase v =>
    simp only [added?, condition?] at h
    split at h
    · rename_i hc
      split at hc
      · cases hc; cases h
      · split at hc
        · cases hc; cases h; trivial
        · cases hc
    · cases h
  | null => cases h; trivial
  | notNull => cases h; trivial
  | arrayContains v =>
    simp only [added?, condition?] at h
    split at h <;> cases h
    trivial
  | arrayContainsAny vs => cases h; trivial

/-! ### Conjunctions -/

mutual

/-- The conjunction after a directive. A join adds one tree, if it has conditions at all. -/
def Directive.conjoin (t : PredicateTree) : Directive → PredicateTree
  | .filter path f => f.added?.elim t fun c => t.merge (.atPath (dotPieces path) c)
  | .oneOf path vs => t.merge (.atPath (dotPieces path) (.op (.oneOf vs)))
  | .join relation ds =>
    if (PredicateTree.conjoinAll [] ds).isEmpty then t
    else t.merge (.atPath (dotPieces relation) (.nested (PredicateTree.conjoinAll [] ds)))
  | .or _ => t
  | .shape _ => t

/-- The conjunction after several directives. -/
def PredicateTree.conjoinAll (t : PredicateTree) : List Directive → PredicateTree
  | [] => t
  | d :: ds => PredicateTree.conjoinAll (d.conjoin t) ds

end

/-! ### Alternatives -/

mutual

/-- The trees that alternatives make of a conjunction; other directives make none. -/
def Directive.alternatives? (t : PredicateTree) : Directive → Option (List PredicateTree)
  | .or branches => some (branchAlternatives t branches)
  | _ => none

/-- The trees that a conjunction is distributed over: one for every innermost branch. -/
def alternatives (t : PredicateTree) : List Directive → List PredicateTree
  | [] => [t]
  | d :: ds => (d.alternatives? t).getD (alternatives (d.conjoin t) ds)

/-- The alternatives of all branches, each of which starts from the same conjunction. -/
def branchAlternatives (t : PredicateTree) : List (List Directive) → List PredicateTree
  | [] => []
  | ds :: branches => alternatives t ds ++ branchAlternatives t branches

end

mutual

def Directive.choices? : Directive → Option (List (List Directive))
  | .or branches => some (branchChoices branches)
  | _ => none

/-- The lists without alternatives that a list stands for, by a choice of one branch everywhere. -/
def choices : List Directive → List (List Directive)
  | [] => [[]]
  | d :: ds => d.choices?.getD ((choices ds).map (d :: ·))

def branchChoices : List (List Directive) → List (List Directive)
  | [] => []
  | ds :: branches => choices ds ++ branchChoices branches

end

/-! ### Relations -/

/-- The relations that a shaping step declares. -/
def Shaping.declared : Shaping → RelationTree
  | .fetchRelation hops => .atPath (hops.flatMap dotPieces) .load
  | _ => []

mutual

/-- The declared relations after a directive. -/
def Directive.declare (r : RelationTree) : Directive → RelationTree
  | .filter path f => if f.added?.isSome then r.merge (.atPath (dotPieces path).dropLast .load) else r
  | .oneOf path _ => r.merge (.atPath (dotPieces path).dropLast .load)
  | .join relation ds =>
    r.merge (.atPath (dotPieces relation) (.above (RelationTree.declareAll [] ds)))
  | .or branches => RelationTree.declareBranches r branches
  | .shape s => r.merge s.declared

def RelationTree.declareAll (r : RelationTree) : List Directive → RelationTree
  | [] => r
  | d :: ds => RelationTree.declareAll (d.declare r) ds

/-- Each branch declares its relations on its own, and they are put together. -/
def RelationTree.declareBranches (r : RelationTree) : List (List Directive) → RelationTree
  | [] => r
  | ds :: branches => RelationTree.declareBranches (r.merge (RelationTree.declareAll [] ds)) branches

end

/-! ### Shaping -/

/-- The page after a token; a blank token says nothing. -/
def Pagination.resumed (token : String) (p : Pagination) : Pagination :=
  if Text.trim token.toList = [] then p
  else match Cursor.decode token with
    | .ok cursor => { p with cursor := some cursor }
    | .error _ => p

/-- The page with a size; zero says nothing. -/
def Pagination.limited (n : UInt64) (p : Pagination) : Pagination :=
  if n = 0 then p else { p with limit := some n }

/-- The specification after a shaping step. -/
def Shaping.reshape (q : QuerySpec) : Shaping → QuerySpec
  | .sort direction field => { q with order := Builder.setOrder field direction q.order }
  | .select field => { q with selection := insertName field q.selection }
  | .fetchRelation hops =>
    { q with relations := q.relations.merge (.atPath (hops.flatMap dotPieces) .load) }
  | .loadRelationIds => { q with loadRelationIds := true }
  | .cache policy => { q with cache := policy }
  | .next token => { q with pagination := q.pagination.resumed token }
  | .limit n => { q with pagination := q.pagination.limited n }

namespace Shaping

variable (q : QuerySpec) (step : Shaping)

theorem entity_reshape : (step.reshape q).entity = q.entity := by
  cases step <;> rfl

theorem predicate_reshape : (step.reshape q).predicate = q.predicate := by
  cases step <;> rfl

theorem relations_reshape :
    (step.reshape q).relations = q.relations.merge step.declared := by
  cases step with
  | fetchRelation hops => rfl
  | _ => exact (RelationTree.merge_nil _).symm

end Shaping

/-! ### Lists without alternatives -/

def Directive.isOr : Directive → Bool
  | .or _ => true
  | _ => false

def Directive.isShaping : Directive → Bool
  | .shape _ => true
  | _ => false

/-- No directive of the list itself is a list of alternatives. -/
def Conjunctive (ds : List Directive) : Prop := ∀ d ∈ ds, d.isOr = false

theorem conjunctive_cons {d : Directive} {ds : List Directive} :
    Conjunctive (d :: ds) ↔ d.isOr = false ∧ Conjunctive ds :=
  List.forall_mem_cons

theorem alternatives_cons {d : Directive} (hd : d.isOr = false) (t : PredicateTree)
    (ds : List Directive) : alternatives t (d :: ds) = alternatives (d.conjoin t) ds := by
  cases d with
  | or branches => cases hd
  | _ => rfl

theorem alternatives_or (t : PredicateTree) (branches : List (List Directive))
    (ds : List Directive) :
    alternatives t (.or branches :: ds) = branchAlternatives t branches := rfl

theorem choices_cons {d : Directive} (hd : d.isOr = false) (ds : List Directive) :
    choices (d :: ds) = (choices ds).map (d :: ·) := by
  cases d with
  | or branches => cases hd
  | _ => rfl

theorem choices_or (branches : List (List Directive)) (ds : List Directive) :
    choices (.or branches :: ds) = branchChoices branches := rfl

theorem alternatives_of_conjunctive {ds : List Directive} (h : Conjunctive ds)
    (t : PredicateTree) : alternatives t ds = [t.conjoinAll ds] := by
  induction ds generalizing t with
  | nil => rfl
  | cons d ds ih =>
    obtain ⟨hd, hds⟩ := conjunctive_cons.1 h
    rw [alternatives_cons hd, ih hds, PredicateTree.conjoinAll]

theorem branchAlternatives_eq_flatMap (t : PredicateTree) (branches : List (List Directive)) :
    branchAlternatives t branches = branches.flatMap (alternatives t) := by
  induction branches with
  | nil => rfl
  | cons ds branches ih => rw [branchAlternatives, ih, List.flatMap_cons]

theorem branchChoices_eq_flatMap (branches : List (List Directive)) :
    branchChoices branches = branches.flatMap choices := by
  induction branches with
  | nil => rfl
  | cons ds branches ih => rw [branchChoices, ih, List.flatMap_cons]

mutual

theorem Directive.alternatives?_eq_map : (t : PredicateTree) → (d : Directive) →
    d.alternatives? t = d.choices?.map (·.map t.conjoinAll)
  | t, .or branches => congrArg some (branchAlternatives_eq_map t branches)
  | _, .filter _ _ => rfl
  | _, .oneOf _ _ => rfl
  | _, .join _ _ => rfl
  | _, .shape _ => rfl

/-- The alternatives are the conjunctions of the lists that a list stands for. -/
theorem alternatives_eq_map : (t : PredicateTree) → (ds : List Directive) →
    alternatives t ds = (choices ds).map t.conjoinAll
  | _, [] => rfl
  | t, d :: ds => by
    rw [alternatives, choices, Directive.alternatives?_eq_map t d,
      alternatives_eq_map (d.conjoin t) ds]
    cases d.choices? with
    | some ls => rfl
    | none =>
      rw [Option.map_none, Option.getD_none, Option.getD_none, List.map_map]
      rfl

theorem branchAlternatives_eq_map : (t : PredicateTree) → (branches : List (List Directive)) →
    branchAlternatives t branches = (branchChoices branches).map t.conjoinAll
  | _, [] => rfl
  | t, ds :: branches => by
    rw [branchAlternatives, branchChoices, List.map_append, alternatives_eq_map t ds,
      branchAlternatives_eq_map t branches]

end

/-! ### Choosing branches -/

/-- Induction along a choice: it keeps what is no list of alternatives, and at the first such list it
goes on inside one of the branches. -/
@[elab_as_elim]
theorem choices_induction {motive : List Directive → List Directive → Prop} (nil : motive [] [])
    (cons : ∀ d ds run, d.isOr = false → run ∈ choices ds → motive ds run →
      motive (d :: ds) (d :: run))
    (or : ∀ branches ds br run, br ∈ branches → run ∈ choices br → motive br run →
      motive (.or branches :: ds) run)
    {ds run : List Directive} (h : run ∈ choices ds) : motive ds run := by
  let Good (d : Directive) : Prop := ∀ branches, d = .or branches →
    ∀ br ∈ branches, ∀ run ∈ choices br, motive br run
  have all : ∀ ds, (∀ d ∈ ds, Good d) → ∀ run ∈ choices ds, motive ds run := by
    intro ds hgood
    induction ds with
    | nil =>
      intro run hrun
      rw [choices, List.mem_singleton] at hrun
      exact hrun ▸ nil
    | cons d ds ih =>
      obtain ⟨hd, hds⟩ := List.forall_mem_cons.1 hgood
      intro run hrun
      by_cases hor : d.isOr = true
      · cases d with
        | or branches =>
          rw [choices_or, branchChoices_eq_flatMap] at hrun
          obtain ⟨br, hbr, hrun⟩ := List.mem_flatMap.1 hrun
          exact or branches ds br run hbr hrun (hd branches rfl br hbr run hrun)
        | _ => cases hor
      · have hor : d.isOr = false := by simpa using hor
        rw [choices_cons hor] at hrun
        obtain ⟨run', hrun', rfl⟩ := List.mem_map.1 hrun
        exact cons d ds run' hor hrun' (ih hds run' hrun')
  have good : ∀ d, Good d := by
    intro d
    induction d using Directive.induction with
    | or branches hbranches =>
      intro branches' h br hbr run hrun
      cases h
      exact all br (hbranches br hbr) run hrun
    | _ => exact fun _ h => nomatch h
  exact all ds (fun d _ => good d) run h

end RowQuery
