import RowQuery.Builder

/-!
# Stages of a builder

Filters, joins and shaping steps leave the stage as it is; membership and alternatives close it.
-/

namespace RowQuery.Builder

variable {σ : Schema} {b b' : Builder σ}

@[simp] theorem stage_start {s : Shape} (h : σ.shape? s.name = some s) (scope : Scope) :
    (start s h scope).stage = .accepting := rfl

@[simp] theorem stage_declare (t : RelationTree) : (b.declare t).stage = b.stage := rfl

theorem stage_of_new {entity : String} (h : new σ entity = .ok b) : b.stage = .accepting := by
  unfold new at h
  split at h <;> cases h
  rfl

theorem stage_of_mergeTree {call : Call} {t : PredicateTree} (h : b.mergeTree call t = .ok b') :
    b'.stage = b.stage := by
  obtain ⟨_, _, h⟩ := bind_eq_ok.1 h
  cases h
  rfl

theorem stage_of_write {call : Call} {raw : String} {c : Condition}
    (h : b.write call raw c = .ok b') : b'.stage = b.stage := by
  obtain ⟨_, _, h⟩ := bind_eq_ok.1 h
  obtain ⟨path, _, h⟩ := bind_eq_ok.1 h
  obtain ⟨_, _, h⟩ := bind_eq_ok.1 h
  have h := stage_of_mergeTree h
  cases hp : path.relationPrefix? <;> rw [hp] at h <;> exact h

theorem stage_of_filter {path : String} {f : Filter} (h : b.filter path f = .ok b') :
    b'.stage = b.stage := by
  obtain ⟨c, _, h⟩ := bind_eq_ok.1 h
  cases c with
  | none =>
    obtain ⟨_, _, h⟩ := bind_eq_ok.1 h
    cases h
    rfl
  | some c => exact stage_of_write h

theorem stage_of_join {path : FieldPath} {sub : Builder σ} (h : b.join path sub = .ok b') :
    b'.stage = b.stage := by
  obtain ⟨_, _, h⟩ := bind_eq_ok.1 h
  obtain ⟨s, _, h⟩ := bind_eq_ok.1 h
  obtain ⟨_, _, h⟩ := bind_eq_ok.1 h
  cases hp : sub.spec.predicate with
  | any _ => simp only [hp] at h; cases h
  | all t =>
    simp only [hp] at h
    split at h
    · cases h; rfl
    · exact (stage_of_mergeTree h :)

theorem stage_of_branchScope (h : b.branchScope = .ok b') : b'.stage = .accepting := by
  obtain ⟨_, _, h⟩ := bind_eq_ok.1 h
  obtain ⟨_, _, h⟩ := bind_eq_ok.1 h
  cases h
  rfl

theorem stage_of_joinScope {relation : String} {path : FieldPath}
    (h : b.joinScope relation = .ok (path, b')) : b'.stage = .accepting := by
  obtain ⟨_, _, h⟩ := bind_eq_ok.1 h
  obtain ⟨_, _, h⟩ := bind_eq_ok.1 h
  split at h <;> cases h
  rfl

theorem stage_of_oneOf {path : String} {vs : List Value} (h : b.oneOf path vs = .ok b') :
    b'.stage = .closed .whereIn := by
  obtain ⟨_, _, h⟩ := bind_eq_ok.1 h
  cases hs : b.scope with
  | join _ => simp only [hs] at h; cases h
  | branch => simp only [hs] at h; cases h
  | root =>
    simp only [hs] at h
    obtain ⟨_, _, h⟩ := bind_eq_ok.1 h
    cases h
    rfl

theorem stage_of_or {branches : List (Builder σ)} (h : b.or branches = .ok b') :
    b'.stage = .closed .whereOr := by
  obtain ⟨_, _, h⟩ := bind_eq_ok.1 h
  obtain ⟨_, _, h⟩ := bind_eq_ok.1 h
  obtain ⟨_, _, h⟩ := bind_eq_ok.1 h
  cases h
  rfl

theorem stage_of_next {token : String} (h : b.next token = .ok b') : b'.stage = b.stage := by
  unfold next at h
  split at h
  · cases h; rfl
  · obtain ⟨_, _, h⟩ := bind_eq_ok.1 h
    cases h
    rfl

@[simp] theorem stage_limit (n : UInt64) : (b.limit n).stage = b.stage := by
  unfold limit
  split <;> rfl

theorem stage_of_page {r : PageRequest} (h : b.page r = .ok b') : b'.stage = b.stage := by
  obtain ⟨b₁, hb₁, h⟩ := bind_eq_ok.1 h
  cases h
  have hnext : b₁.stage = b.stage := by
    cases hr : r.next with
    | none => rw [hr] at hb₁; cases hb₁; rfl
    | some token => rw [hr] at hb₁; exact stage_of_next hb₁
  cases r.limit with
  | none => exact hnext
  | some n => rw [Option.elim_some, stage_limit, hnext]

theorem stage_of_shaped {s : Shaping} (h : b.shaped s = .ok b') : b'.stage = b.stage := by
  cases s with
  | sort d field =>
    obtain ⟨_, _, h⟩ := bind_eq_ok.1 h
    cases h
    rfl
  | select field =>
    obtain ⟨_, _, h⟩ := bind_eq_ok.1 h
    cases h
    rfl
  | fetchRelation hops =>
    obtain ⟨_, _, h⟩ := bind_eq_ok.1 h
    obtain ⟨_, _, h⟩ := bind_eq_ok.1 h
    cases h
    rfl
  | next token => exact stage_of_next h
  | loadRelationIds => cases h; rfl
  | cache policy => cases h; rfl
  | limit n => cases h; exact stage_limit n

end RowQuery.Builder
