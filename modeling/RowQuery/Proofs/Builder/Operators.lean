import RowQuery.Proofs.Builder.Reachable

/-!
# The operators in a builder

Filters write operators of a few forms only, each of which has dealt with null before
(`Filter.every_written`). All others come from `Builder.oneOf`, of which a chain takes one
(`Reachable.membershipCloses`). So whatever a builder went through, no operand in it is null outside
of lists, and what stands behind a negation has a negative form of its own (`Reachable.proper`).
-/

namespace RowQuery

namespace Operator

/-- The operators that filters write. -/
inductive Written : Operator → Prop
  | equal {v : Value} (hv : v.isNull = false) : Written (.equal v)
  | notEqual {v : Value} (hv : v.isNull = false) : Written (.notEqual v)
  | compare (c : Comparison) {v : Value} (hv : v.isNull = false) : Written (c.operator v)
  | between {low high : Value} (hlow : low.isNull = false) (hhigh : high.isNull = false) :
    Written (.between low high)
  | like (p : Pattern) : Written (.like p)
  | isNull : Written .isNull
  | isNotNull : Written .isNotNull
  | arrayContains {v : Value} (hv : v.isNull = false) : Written (.arrayContains v)
  | arrayContainsAny (vs : List Value) : Written (.arrayContainsAny vs)

/-- No operand is null; the elements of a list may be. -/
def NullFree : Operator → Prop
  | equal v | moreThan v | moreThanOrEqual v | lessThan v | lessThanOrEqual v | arrayContains v =>
    v.isNull = false
  | between low high => low.isNull = false ∧ high.isNull = false
  | like _ | oneOf _ | isNull | arrayContainsAny _ => True
  | not o => o.NullFree

/-- Equality, the four comparisons and the null test. -/
def Negatable : Operator → Prop
  | equal _ | moreThan _ | moreThanOrEqual _ | lessThan _ | lessThanOrEqual _ | isNull => True
  | _ => False

/-- No operand is null, and a negation stands only before what has a negative form of its own. -/
structure Proper (o : Operator) : Prop where
  nullFree : o.NullFree
  negatable : ∀ o', o = .not o' → o'.Negatable

def isMembership : Operator → Bool
  | oneOf _ => true
  | _ => false

theorem Written.proper {o : Operator} (h : o.Written) : o.Proper := by
  cases h with
  | equal hv => exact ⟨hv, nofun⟩
  | notEqual hv => exact ⟨hv, fun o' h => by cases h; trivial⟩
  | compare c hv => cases c <;> exact ⟨hv, fun o' h => by cases h <;> trivial⟩
  | between hlow hhigh => exact ⟨⟨hlow, hhigh⟩, nofun⟩
  | isNotNull => exact ⟨trivial, fun o' h => by cases h; trivial⟩
  | arrayContains hv => exact ⟨hv, nofun⟩
  | like _ | isNull | arrayContainsAny _ => exact ⟨trivial, nofun⟩

theorem proper_oneOf (vs : List Value) : (oneOf vs).Proper := ⟨trivial, nofun⟩

theorem Written.isMembership_eq_false {o : Operator} (h : o.Written) : o.isMembership = false := by
  cases h with
  | compare c _ => cases c <;> rfl
  | _ => rfl

end Operator

/-- Half of a range is a comparison, and a filter for null writes the null test. -/
theorem Filter.every_written {f : Filter} {c : Condition} (h : f.condition? = .ok (some c)) :
    c.Every Operator.Written := by
  cases f with
  | eq v =>
    cases h
    split
    · exact .isNull
    · rename_i hv
      exact .equal (by simpa using hv)
  | ne v =>
    cases h
    unfold Condition.Every
    split
    · exact .isNotNull
    · rename_i hv
      exact .notEqual (by simpa using hv)
  | compare o v =>
    obtain ⟨hv, rfl⟩ : v.isNull = false ∧ .op (o.operator v) = c := by
      simpa [condition?] using h
    exact .compare o hv
  | between low high =>
    simp only [condition?, Except.ok.injEq] at h
    split at h
    · cases h
    · rename_i hlow _
      cases h
      exact .compare .gte hlow
    · rename_i _ hhigh
      cases h
      exact .compare .lte hhigh
    · rename_i hlow hhigh
      cases h
      exact .between hlow hhigh
  | pattern kind ignoreCase v =>
    simp only [condition?] at h
    split at h
    · cases h
    · split at h <;> cases h
      exact .like _
  | null =>
    cases h
    exact .isNull
  | notNull =>
    cases h
    exact .isNotNull
  | arrayContains v =>
    obtain ⟨hv, rfl⟩ : v.isNull = false ∧ .op (.arrayContains v) = c := by
      simpa [condition?] using h
    exact .arrayContains hv
  | arrayContainsAny vs =>
    cases h
    exact .arrayContainsAny vs

namespace Builder

variable {σ : Schema} {b : Builder σ}

/-- The operators of a builder are written by filters or test membership. -/
theorem Reachable.every_of_written {P : Operator → Prop} (hb : b.Reachable)
    (hwritten : ∀ o, o.Written → P o) (honeOf : ∀ vs, P (.oneOf vs)) : b.Every P :=
  hb.every (fun _ c h => Condition.Every.mono hwritten c (Filter.every_written h)) honeOf

/-- Whatever a builder went through, its operators are proper. -/
theorem Reachable.proper (hb : b.Reachable) : b.Every Operator.Proper :=
  hb.every_of_written (fun _ => Operator.Written.proper) Operator.proper_oneOf

/-! ### Membership tests -/

/-- A membership test closed the chain of a root, in which it stands alone, or there is none. -/
structure MembershipCloses (b : Builder σ) : Prop where
  whereIn : b.stage = .closed .whereIn → b.scope = .root ∧ ∃ t, b.spec.predicate = .all t ∧
    Leaf.count Operator.isMembership t.leaves = 1
  other : b.stage ≠ .closed .whereIn → b.Every (·.isMembership = false)

namespace MembershipCloses

theorem of_every (hs : b.stage ≠ .closed .whereIn) (h : b.Every (·.isMembership = false)) :
    MembershipCloses b :=
  ⟨fun hc => absurd hc hs, fun _ => h⟩

theorem every_of_accepting (h : MembershipCloses b) (hs : b.stage = .accepting) :
    b.Every (·.isMembership = false) :=
  h.other (by simp [hs])

theorem every_of_scope (h : MembershipCloses b) (hs : b.scope ≠ .root) :
    b.Every (·.isMembership = false) :=
  h.other fun hc => hs (h.whereIn hc).1

end MembershipCloses

/-- What is merged in by `Builder.oneOf` is the one membership test of the tree. -/
theorem MembershipCloses.oneOf {b' : Builder σ} {path : String} {vs : List Value}
    (hb : MembershipCloses b) (h : b.oneOf path vs = .ok b') : MembershipCloses b' := by
  obtain ⟨hscope, b₁, hw, rfl⟩ := oneOf_eq_ok.1 h
  obtain ⟨hs, p, _, _, t, ht, rfl⟩ := write_eq_ok.1 hw
  have hnone : PredicateTree.Every (·.isMembership = false) t :=
    (every_of_all ht).1 (hb.every_of_accepting hs)
  have hone : Leaf.count Operator.isMembership
      (PredicateTree.leaves (t.merge (p.predicate (.op (.oneOf vs))))) = 1 :=
    PredicateTree.count_merge_atPath rfl p.ne_nil hnone []
  exact ⟨fun _ => ⟨hscope, _, rfl, hone⟩, fun hne => absurd rfl hne⟩

theorem Reachable.membershipCloses (hb : b.Reachable) : MembershipCloses b := by
  induction hb with
  | new h =>
    obtain ⟨s, _, _, rfl⟩ := new_eq_ok.1 h
    exact .of_every (by simp) ((every_of_all rfl).2 PredicateTree.every_nil)
  | filter _ h ih =>
    rcases filter_eq_ok.1 h with ⟨_, _, rfl⟩ | ⟨c, hc, hw⟩
    · exact ih
    · have hs := (write_eq_ok.1 hw).1
      have hcond : c.Every (·.isMembership = false) :=
        Condition.Every.mono (fun _ => Operator.Written.isMembership_eq_false) c
          (Filter.every_written hc)
      have hs' : _ = Stage.accepting := (stage_of_write hw).trans hs
      exact .of_every (by simp [hs']) (every_of_write (ih.every_of_accepting hs) hcond hw)
  | oneOf _ h ih => exact ih.oneOf h
  | joinScope _ h =>
    obtain ⟨_, _, s, _, _, rfl⟩ := joinScope_eq_ok.1 h
    exact .of_every (by simp) ((every_of_all rfl).2 PredicateTree.every_nil)
  | join _ _ h ih ihsub =>
    obtain ⟨hs, _, hscope, u, hu, ⟨_, rfl⟩ | ⟨_, t, ht, rfl⟩⟩ := join_eq_ok.1 h
    · exact ⟨ih.whereIn, ih.other⟩
    · have hold : PredicateTree.Every (·.isMembership = false) t :=
        (every_of_all ht).1 (ih.every_of_accepting hs)
      have hnew : (Condition.nested u).Every (·.isMembership = false) :=
        (every_of_all hu).1 (ihsub.every_of_scope (by simp [hscope]))
      exact .of_every (by simp [withTree, declare, hs])
        ((every_of_all rfl).2 (hold.merge (PredicateTree.every_atPath hnew _)))
  | branchScope _ h ih =>
    obtain ⟨hs, t, ht, rfl⟩ := branchScope_eq_ok.1 h
    exact .of_every (by simp [withTree])
      ((every_of_all rfl).2 ((every_of_all ht).1 (ih.every_of_accepting hs)))
  | or _ _ h _ ihsubs =>
    obtain ⟨_, _, hbranches, rfl⟩ := or_eq_ok.1 h
    refine .of_every (by simp) fun u hu => ?_
    obtain ⟨sub, hsub, hu⟩ := List.mem_flatMap.1 hu
    exact (ihsubs sub hsub).every_of_scope (by simp [(hbranches sub hsub).1]) u hu
  | shaped _ h ih =>
    have hsame := sameFilter_of_shaped h
    refine ⟨fun hc => ?_, fun hne => ?_⟩
    · rw [hsame.scope, hsame.predicate]
      exact ih.whereIn (hsame.stage ▸ hc)
    · intro u hu
      rw [hsame.predicate] at hu
      exact ih.other (hsame.stage ▸ hne) u hu

end Builder

/-- How many membership tests there are in all alternatives. -/
def Predicate.memberships (p : Predicate) : Nat := Leaf.count Operator.isMembership p.leaves

/-- The membership tests of a builder are the one that closed its chain. -/
theorem Builder.MembershipCloses.memberships_eq {σ : Schema} {b : Builder σ}
    (h : b.MembershipCloses) :
    b.spec.predicate.memberships = if b.stage = .closed .whereIn then 1 else 0 := by
  by_cases hs : b.stage = .closed .whereIn
  · obtain ⟨_, t, ht, hcount⟩ := h.whereIn hs
    have hleaves : b.spec.predicate.leaves = t.leaves := by
      simp [ht, Predicate.leaves, Predicate.alternatives]
    rw [if_pos hs, Predicate.memberships, hleaves, hcount]
  · rw [if_neg hs]
    exact (Leaf.count_eq_zero _).2 (h.other hs).leaves

end RowQuery
