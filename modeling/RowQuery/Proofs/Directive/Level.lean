import RowQuery.Proofs.Directive.Effect

/-!
# The grammar of chains

The directives of a query lie on levels: the root list, the list of every join and the list of every
branch. `Disciplined` is a condition on each level by itself; `disciplined_cons` reads it along a
list.
-/

namespace RowQuery

/-- Where a list of directives stands. -/
inductive Place where
  | root
  | join
  | branch
deriving DecidableEq, Repr

/-- The list `l` at the place `q` is a level of the list `ds` at the place `p`. -/
inductive Level : Place → List Directive → Place → List Directive → Prop where
  | self (p : Place) (ds : List Directive) : Level p ds p ds
  | join {p q : Place} {ds js l : List Directive} {relation : String}
      (hmem : .join relation js ∈ ds) (h : Level .join js q l) : Level p ds q l
  | branch {p q : Place} {ds br l : List Directive} {branches : List (List Directive)}
      (hmem : .or branches ∈ ds) (hbr : br ∈ branches) (h : Level .branch br q l) : Level p ds q l

/-- Membership and alternatives end the conditions of their level. -/
def Directive.isClosing : Directive → Bool
  | .oneOf _ _ | .or _ => true
  | _ => false

/-- Membership stands at the root only. Alternatives stand anywhere but in a join, and there is at
least one. -/
def Directive.Placed (q : Place) : Directive → Prop
  | .oneOf _ _ => q = .root
  | .or branches => q ≠ .join ∧ branches ≠ []
  | _ => True

/-- The directives of one level: each may stand there, and after one that closes the chain there are
only shaping steps. -/
structure WellPlaced (q : Place) (l : List Directive) : Prop where
  placed : ∀ d ∈ l, d.Placed q
  order : l.Pairwise fun d e => d.isClosing = true → e.isShaping = true

/-- Every level is well placed. -/
def Disciplined (p : Place) (ds : List Directive) : Prop :=
  ∀ q l, Level p ds q l → WellPlaced q l

/-- The levels inside a directive are well placed. -/
def Directive.Inside : Directive → Prop
  | .join _ js => Disciplined .join js
  | .or branches => ∀ br ∈ branches, Disciplined .branch br
  | _ => True

variable {p : Place} {d : Directive} {ds : List Directive}

theorem disciplined_iff : Disciplined p ds ↔ WellPlaced p ds ∧ ∀ d ∈ ds, d.Inside := by
  constructor
  · intro h
    refine ⟨h p ds (.self p ds), fun d hd => ?_⟩
    cases d with
    | join relation js => exact fun q l hl => h q l (.join hd hl)
    | or branches => exact fun br hbr q l hl => h q l (.branch hd hbr hl)
    | _ => trivial
  · rintro ⟨hself, hinside⟩ q l hl
    cases hl with
    | self => exact hself
    | join hmem hl => exact hinside _ hmem q l hl
    | branch hmem hbr hl => exact hinside _ hmem _ hbr q l hl

theorem wellPlaced_cons :
    WellPlaced p (d :: ds) ↔
      d.Placed p ∧ (d.isClosing = true → ∀ e ∈ ds, e.isShaping = true) ∧ WellPlaced p ds := by
  constructor
  · rintro ⟨hplaced, horder⟩
    obtain ⟨hd, hds⟩ := List.forall_mem_cons.1 hplaced
    obtain ⟨hhead, htail⟩ := List.pairwise_cons.1 horder
    exact ⟨hd, fun hc e he => hhead e he hc, hds, htail⟩
  · rintro ⟨hd, hhead, hds, htail⟩
    exact ⟨List.forall_mem_cons.2 ⟨hd, hds⟩,
      List.pairwise_cons.2 ⟨fun e he hc => hhead hc e he, htail⟩⟩

theorem disciplined_nil (p : Place) : Disciplined p [] :=
  disciplined_iff.2 ⟨⟨nofun, .nil⟩, nofun⟩

/-- Along a list, each directive has to be placed well, on the outside and inside, and to let the
rest follow. -/
theorem disciplined_cons :
    Disciplined p (d :: ds) ↔
      d.Placed p ∧ d.Inside ∧ (d.isClosing = true → ∀ e ∈ ds, e.isShaping = true) ∧
        Disciplined p ds := by
  rw [disciplined_iff, disciplined_iff, wellPlaced_cons, List.forall_mem_cons]
  constructor
  · rintro ⟨⟨hplaced, hclosing, hds⟩, hinside, hall⟩
    exact ⟨hplaced, hinside, hclosing, hds, hall⟩
  · rintro ⟨hplaced, hinside, hclosing, hds, hall⟩
    exact ⟨⟨hplaced, hclosing, hds⟩, hinside, hall⟩

/-- Shaping steps can stand everywhere. -/
theorem disciplined_of_isShaping (p : Place) (h : ∀ d ∈ ds, d.isShaping = true) :
    Disciplined p ds := by
  induction ds with
  | nil => exact disciplined_nil p
  | cons d ds ih =>
    obtain ⟨hd, hds⟩ := List.forall_mem_cons.1 h
    cases d with
    | shape step => exact disciplined_cons.2 ⟨trivial, trivial, nofun, ih hds⟩
    | _ => cases hd

theorem conjunctive_of_isShaping (h : ∀ d ∈ ds, d.isShaping = true) : Conjunctive ds := by
  intro d hd
  have hshape := h d hd
  cases d with
  | or branches => cases hshape
  | _ => rfl

end RowQuery
