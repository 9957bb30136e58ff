import RowQuery.Proofs.Builder.Run
import RowQuery.Proofs.Tree.Traversal

/-!
# The builders that calls lead to

A sub-query may be any builder that was had before, and need not have grown from the one that was
handed out. `Reachable` follows the calls themselves, so it knows of every builder that can exist at
all. In its conditions stand only operators that filters and membership tests write.
-/

namespace RowQuery

namespace Builder

variable {σ : Schema} {b : Builder σ} {P : Operator → Prop}

/-- The builder comes out of calls on builders that come out of calls. -/
inductive Reachable : Builder σ → Prop
  | new {entity : String} {b : Builder σ} (h : new σ entity = .ok b) : Reachable b
  | filter {b b' : Builder σ} {path : String} {f : Filter} (hb : Reachable b)
    (h : b.filter path f = .ok b') : Reachable b'
  | oneOf {b b' : Builder σ} {path : String} {vs : List Value} (hb : Reachable b)
    (h : b.oneOf path vs = .ok b') : Reachable b'
  | joinScope {b sub : Builder σ} {relation : String} {p : FieldPath} (hb : Reachable b)
    (h : b.joinScope relation = .ok (p, sub)) : Reachable sub
  | join {b sub b' : Builder σ} {p : FieldPath} (hb : Reachable b) (hsub : Reachable sub)
    (h : b.join p sub = .ok b') : Reachable b'
  | branchScope {b seed : Builder σ} (hb : Reachable b) (h : b.branchScope = .ok seed) :
    Reachable seed
  | or {b b' : Builder σ} {subs : List (Builder σ)} (hb : Reachable b)
    (hsubs : ∀ sub ∈ subs, Reachable sub) (h : b.or subs = .ok b') : Reachable b'
  | shaped {b b' : Builder σ} {step : Shaping} (hb : Reachable b)
    (h : b.shaped step = .ok b') : Reachable b'

/-- A list of directives is a list of calls. -/
theorem Reachable.applyAll {b b' : Builder σ} {ds : List Directive} (hb : b.Reachable)
    (h : b.applyAll ds = .ok b') : b'.Reachable := by
  revert hb
  refine applyAll_induction ?nil ?skip ?filter ?oneOf ?join ?or ?shape h
  case nil => exact fun b hb => hb
  case skip => exact fun b path f ds b' _ _ ih => ih
  case filter =>
    intro b path f c b₁ ds b' hc hw ih hb
    exact ih (hb.filter (filter_eq_ok.2 (.inr ⟨c, hc, hw⟩)))
  case oneOf => exact fun b path vs b₁ ds b' h _ ih hb => ih (hb.oneOf h)
  case join =>
    intro b relation js p sub sub' b₁ ds b' hsub ihsub h ih hb
    exact ih (hb.join (ihsub (hb.joinScope hsub)) h)
  case or =>
    intro b branches seed subs b₁ ds b' hseed hruns h _ ih hb
    have hsubs : ∀ sub ∈ subs, sub.Reachable := by
      clear h
      induction hruns with
      | nil => simp
      | cons hrun _ ihs => exact List.forall_mem_cons.2 ⟨hrun (hb.branchScope hseed), ihs⟩
    exact ih (hb.or hsubs h)
  case shape => exact fun b step b₁ ds b' h ih hb => ih (hb.shaped h)

theorem Reachable.apply {b b' : Builder σ} {d : Directive} (hb : b.Reachable)
    (h : b.apply d = .ok b') : b'.Reachable := by
  have hrun : b.applyAll [d] = .ok b' := applyAll_cons_eq_ok.2 ⟨b', h, rfl⟩
  exact hb.applyAll hrun

/-! ### The form of the predicate -/

theorem exists_all_of_write {b' : Builder σ} {call : Call} {path : String} {c : Condition}
    (h : b.write call path c = .ok b') :
    b'.stage = .accepting ∧ ∃ t, b'.spec.predicate = .all t := by
  rw [stage_of_write h]
  obtain ⟨hs, _, _, _, _, _, rfl⟩ := write_eq_ok.1 h
  exact ⟨hs, _, rfl⟩

/-- The predicate is a list of alternatives exactly while the chain is closed by them. -/
theorem Reachable.exists_any_iff (hb : b.Reachable) :
    (∃ ts, b.spec.predicate = .any ts) ↔ b.stage = .closed .whereOr := by
  induction hb with
  | new h =>
    obtain ⟨_, _, _, rfl⟩ := new_eq_ok.1 h
    simp [start, QuerySpec.all]
  | filter _ h ih =>
    rcases filter_eq_ok.1 h with ⟨_, _, rfl⟩ | ⟨c, _, hw⟩
    · exact ih
    · obtain ⟨hs, t, ht⟩ := exists_all_of_write hw
      simp [hs, ht]
  | oneOf _ h =>
    obtain ⟨_, b₁, hw, rfl⟩ := oneOf_eq_ok.1 h
    obtain ⟨_, t, ht⟩ := exists_all_of_write hw
    simp [close, ht]
  | joinScope _ h =>
    obtain ⟨_, _, s, _, _, rfl⟩ := joinScope_eq_ok.1 h
    simp [start, QuerySpec.all]
  | join _ _ h ih =>
    obtain ⟨hs, _, _, u, _, ⟨_, rfl⟩ | ⟨_, t, _, rfl⟩⟩ := join_eq_ok.1 h
    · exact ih
    · simp [withTree, hs]
  | branchScope _ h =>
    obtain ⟨_, t, _, rfl⟩ := branchScope_eq_ok.1 h
    simp [withTree]
  | or _ _ h =>
    obtain ⟨_, _, _, rfl⟩ := or_eq_ok.1 h
    simp
  | shaped _ h ih =>
    have hsame := sameFilter_of_shaped h
    rw [hsame.predicate, hsame.stage]
    exact ih

/-- As long as the chain takes conditions, they form one conjunction. -/
theorem Reachable.exists_all (hb : b.Reachable) (hs : b.stage = .accepting) :
    ∃ t, b.spec.predicate = .all t := by
  cases hp : b.spec.predicate with
  | all t => exact ⟨t, rfl⟩
  | any ts =>
    have hclosed := hb.exists_any_iff.1 ⟨ts, hp⟩
    rw [hs] at hclosed
    cases hclosed

/-! ### Operators -/

/-- Every operator in the alternatives of the builder satisfies `P`. -/
def Every (P : Operator → Prop) (b : Builder σ) : Prop :=
  ∀ t ∈ b.spec.predicate.alternatives, PredicateTree.Every P t

theorem every_of_all {t : PredicateTree} (h : b.spec.predicate = .all t) :
    Every P b ↔ PredicateTree.Every P t := by
  simp [Every, h, Predicate.alternatives]

theorem every_of_write {b' : Builder σ} {call : Call} {path : String} {c : Condition}
    (hb : Every P b) (hc : c.Every P) (h : b.write call path c = .ok b') : Every P b' := by
  obtain ⟨_, p, _, _, t, ht, rfl⟩ := write_eq_ok.1 h
  have hold : PredicateTree.Every P t := (every_of_all ht).1 hb
  exact (every_of_all rfl).2 (hold.merge (PredicateTree.every_atPath hc p.segments))

/-- What filters and membership tests write is all that a builder ever has. -/
theorem Reachable.every (hb : b.Reachable)
    (hfilter : ∀ (f : Filter) c, f.condition? = .ok (some c) → c.Every P)
    (honeOf : ∀ vs, P (.oneOf vs)) : Every P b := by
  induction hb with
  | new h =>
    obtain ⟨s, _, _, rfl⟩ := new_eq_ok.1 h
    exact (every_of_all rfl).2 PredicateTree.every_nil
  | filter _ h ih =>
    rcases filter_eq_ok.1 h with ⟨_, _, rfl⟩ | ⟨c, hc, hw⟩
    · exact ih
    · exact every_of_write ih (hfilter _ c hc) hw
  | @oneOf _ _ _ vs _ h ih =>
    obtain ⟨_, b₁, hw, rfl⟩ := oneOf_eq_ok.1 h
    have hc : (Condition.op (.oneOf vs)).Every P := honeOf vs
    have hb₁ : Every P b₁ := every_of_write ih hc hw
    exact hb₁
  | joinScope _ h ih =>
    obtain ⟨_, _, s, _, _, rfl⟩ := joinScope_eq_ok.1 h
    exact (every_of_all rfl).2 PredicateTree.every_nil
  | join _ _ h ih ihsub =>
    obtain ⟨_, _, _, u, hu, ⟨_, rfl⟩ | ⟨_, t, ht, rfl⟩⟩ := join_eq_ok.1 h
    · exact ih
    · have hold : PredicateTree.Every P t := (every_of_all ht).1 ih
      have hnew : (Condition.nested u).Every P := (every_of_all hu).1 ihsub
      exact (every_of_all rfl).2 (hold.merge (PredicateTree.every_atPath hnew _))
  | branchScope _ h ih =>
    obtain ⟨_, t, ht, rfl⟩ := branchScope_eq_ok.1 h
    exact (every_of_all rfl).2 ((every_of_all ht).1 ih)
  | or _ _ h _ ihsubs =>
    obtain ⟨_, _, _, rfl⟩ := or_eq_ok.1 h
    intro u hu
    obtain ⟨sub, hsub, hu⟩ := List.mem_flatMap.1 hu
    exact ihsubs sub hsub u hu
  | shaped _ h ih =>
    obtain ⟨_, rfl⟩ := shaped_eq_ok.1 h
    intro u hu
    rw [Shaping.predicate_reshape] at hu
    exact ih u hu

theorem Every.leaves (hb : Every P b) : ∀ l ∈ b.spec.predicate.leaves, P l.operator := by
  intro l hl
  obtain ⟨t, ht, hl⟩ := List.mem_flatMap.1 hl
  exact (hb t ht).leavesBelow t l hl

end Builder

end RowQuery
