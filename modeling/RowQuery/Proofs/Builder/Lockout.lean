import RowQuery.Proofs.Builder.Run

/-!
# Closed chains

Membership and alternatives close the chain of conditions for good. From then on every directive
that would add a condition is refused, whatever it says and whatever else is wrong with it, and the
error names its call and the one that closed the chain (`apply_eq_afterTerminal`). A pattern that is
matched against a list is refused too, but for the list.
-/

namespace RowQuery

/-- The call of a directive that adds conditions. -/
def Directive.call? : Directive → Option Call
  | .filter _ f => some f.call
  | .oneOf _ _ => some .whereIn
  | .join _ _ => some .whereJoin
  | .or _ => some .whereOr
  | .shape _ => none

/-- What a directive closes the chain as. -/
def Directive.closing? : Directive → Option Closing
  | .oneOf _ _ => some .whereIn
  | .or _ => some .whereOr
  | _ => none

theorem Directive.isShaping_of_call? {d : Directive} {call : Call} (h : d.call? = some call) :
    d.isShaping = false := by
  cases d with
  | shape step => cases h
  | _ => rfl

namespace Builder

variable {σ : Schema} {b b' : Builder σ} {terminal : Closing}

/-! ### Closing -/

theorem stage_of_closing {d : Directive} (hd : d.closing? = some terminal)
    (h : b.apply d = .ok b') : b'.stage = .closed terminal := by
  cases d with
  | oneOf path vs =>
    cases hd
    exact stage_of_oneOf h
  | or branches =>
    cases hd
    rw [apply] at h
    obtain ⟨subs, _, h⟩ := bind_eq_ok.1 h
    exact stage_of_or h
  | _ => cases hd

/-- The call that closed the chain stays the one that is named. -/
theorem stage_of_mem_closing {ds : List Directive} (h : b.applyAll ds = .ok b') {c : Directive}
    (hc : c ∈ ds) (hterminal : c.closing? = some terminal) : b'.stage = .closed terminal := by
  induction ds generalizing b with
  | nil => cases hc
  | cons d ds ih =>
    obtain ⟨b₁, hd, hrest⟩ := applyAll_cons_eq_ok.1 h
    rcases List.mem_cons.1 hc with rfl | hc
    · have hclosed : b₁.stage = .closed terminal := stage_of_closing hterminal hd
      have hsame := (sameFilter_of_closed (by rw [hclosed]; nofun) hrest).1
      rw [hsame.stage, hclosed]
    · exact ih hrest hc

/-! ### After closing -/

section Closed

variable (hb : b.stage = .closed terminal)
include hb

theorem ensureOpen_of_closed (call : Call) :
    b.ensureOpen call = .error (.chain (.afterTerminal call terminal)) := by
  rw [ensureOpen, hb]

theorem write_of_closed (call : Call) (raw : String) (c : Condition) :
    b.write call raw c = .error (.chain (.afterTerminal call terminal)) := by
  rw [write, ensureOpen_of_closed hb]
  rfl

/-- Null or not, a filter that can be read at all asks for an open chain first. -/
theorem filter_of_closed {path : String} {f : Filter} (hf : ∃ c, f.condition? = .ok c) :
    b.filter path f = .error (.chain (.afterTerminal f.call terminal)) := by
  obtain ⟨c, hc⟩ := hf
  rw [filter, hc]
  cases c with
  | none =>
    show (b.ensureOpen f.call >>= fun _ => _) = _
    rw [ensureOpen_of_closed hb]
    rfl
  | some c => exact write_of_closed hb f.call path c

/-- Without a branch nothing is asked of the chain until the sub-queries are taken back. -/
theorem or_of_closed (branches : List (List Directive)) :
    b.apply (.or branches) = .error (.chain (.afterTerminal .whereOr terminal)) := by
  rw [apply]
  cases branches with
  | nil =>
    show b.or [] = _
    rw [or, ensureOpen_of_closed hb]
    rfl
  | cons ds branches =>
    rw [applyBranches, branchScope, ensureOpen_of_closed hb]
    rfl

theorem apply_of_closed {d : Directive} {call : Call} (hcall : d.call? = some call)
    (hd : ∀ path kind ignoreCase vs, d ≠ .filter path (.pattern kind ignoreCase (.list vs))) :
    b.apply d = .error (.chain (.afterTerminal call terminal)) := by
  cases d with
  | filter path f =>
    cases hcall
    have hf : ∃ c, f.condition? = .ok c := by
      refine Filter.condition?_eq_ok.2 fun kind ignoreCase vs hf => hd path kind ignoreCase vs ?_
      rw [hf]
    exact filter_of_closed hb hf
  | oneOf path vs =>
    cases hcall
    rw [apply, oneOf, ensureOpen_of_closed hb]
    rfl
  | join relation ds =>
    cases hcall
    rw [apply, joinScope, ensureOpen_of_closed hb]
    rfl
  | or branches =>
    cases hcall
    exact or_of_closed hb branches
  | shape step => cases hcall

theorem exists_error_of_closed {d : Directive} (hd : d.isShaping = false) :
    ∃ e, b.apply d = .error e := by
  cases h : b.apply d with
  | error e => exact ⟨e, rfl⟩
  | ok b' =>
    have haccepting := accepting_of_apply hd h
    rw [hb] at haccepting
    cases haccepting

end Closed

/-- Once an accepted list has closed the chain, no directive that adds conditions is accepted. The
error names the call of the directive and the call that closed the chain, unless the directive
matches a pattern against a list. -/
theorem apply_eq_afterTerminal {b₀ b : Builder σ} {ds : List Directive}
    (h : b₀.applyAll ds = .ok b) {c : Directive} (hc : c ∈ ds)
    (hterminal : c.closing? = some terminal) :
    ∀ (d : Directive) call, d.call? = some call →
      (∃ e, b.apply d = .error e) ∧
        ((∀ path kind ignoreCase vs, d ≠ .filter path (.pattern kind ignoreCase (.list vs))) →
          b.apply d = .error (.chain (.afterTerminal call terminal))) := by
  intro d call hcall
  have hclosed : b.stage = .closed terminal := stage_of_mem_closing h hc hterminal
  exact ⟨exists_error_of_closed hclosed (Directive.isShaping_of_call? hcall),
    apply_of_closed hclosed hcall⟩

/-- Alternatives, then a sort key, then a comparison with null on a path that is none. -/
theorem apply_articles_eq_afterTerminal :
    ∃ b₀ b : Builder .articles, new .articles "Article" = .ok b₀ ∧
      b₀.applyAll
        [.or [[.filter "title" .null], [.filter "author.name" .notNull]],
          .shape (.sort .asc "title")] = .ok b ∧
      b.apply (.filter "author..name" (.compare .lt .null)) =
        .error (.chain (.afterTerminal .whereLt .whereOr)) ∧
      b.apply (.join "nowhere" [.oneOf "" []]) =
        .error (.chain (.afterTerminal .whereJoin .whereOr)) := by
  refine exists_run (by decide +kernel) fun b₀ b h₀ h => ?_
  have hnamed := apply_eq_afterTerminal h (.head _) rfl
  exact ⟨(hnamed _ _ rfl).2 (by simp), (hnamed _ _ rfl).2 nofun⟩

/-- The value of a pattern is read before the chain is asked for, so after a membership test a list
is what the error is about. -/
theorem exists_apply_ne_afterTerminal :
    ∃ (b₀ b : Builder .articles) (d : Directive), new .articles "Article" = .ok b₀ ∧
      b₀.applyAll [.oneOf "title" [.string "a"]] = .ok b ∧ d.call? = some .whereStartsWith ∧
      b.apply d = .error (.invalidValue (.notScalar .whereStartsWith (.list [.string "a"]))) ∧
      b.apply d ≠ .error (.chain (.afterTerminal .whereStartsWith .whereIn)) := by
  obtain ⟨b₀, b, h₀, h, hb⟩ : ∃ b₀ b : Builder .articles, new .articles "Article" = .ok b₀ ∧
      b₀.applyAll [.oneOf "title" [.string "a"]] = .ok b ∧
      b.apply (.filter "title" (.pattern .startsWith false (.list [.string "a"]))) =
        .error (.invalidValue (.notScalar .whereStartsWith (.list [.string "a"]))) :=
    exists_run (by decide +kernel) fun b₀ b _ _ => rfl
  refine ⟨b₀, b, _, h₀, h, rfl, hb, ?_⟩
  rw [hb]
  nofun

end Builder

end RowQuery
