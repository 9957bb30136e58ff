import RowQuery.Proofs.Sql.Token

/-!
# Conditions read by precedence

The boolean structure of a condition is read from its tokens in one pass. What stands in parentheses
is read first, at a level of its own; at each level OR separates alternatives, AND separates the
conjuncts of an alternative unless it belongs to a BETWEEN, and NOT binds closest, to one term. A
term without connectives is an atom.
-/

namespace RowQuery.Sql

inductive Formula where
  /-- A test, as the tokens that it is written with. -/
  | atom (ts : List Token)
  | constant (b : Bool)
  | not (f : Formula)
  | all (fs : List Formula)
  | any (fs : List Formula)
deriving Repr

namespace Formula

/-- One formula is its own conjunction, and none hold together. -/
def conjunction : List Formula → Formula
  | [] => constant true
  | [f] => f
  | fs => all fs

def disjunction : List Formula → Formula
  | [] => constant false
  | [f] => f
  | fs => any fs

end Formula

/-! ### Reading -/

/-- What a token does to the structure of a condition. -/
inductive Role where
  | opens | closes | and | or | range | part
deriving DecidableEq, Repr

def Token.role : Token → Role
  | symbol c => if c = '(' then .opens else if c = ')' then .closes else .part
  | word s => if s = "AND" then .and else if s = "OR" then .or
    else if s = "BETWEEN" then .range else .part
  | _ => .part

/-- A part of a term. -/
inductive Item where
  | token (t : Token)
  /-- What stands in parentheses, and how it is read. -/
  | group (ts : List Token) (f : Formula)
deriving Repr

def Item.tokens : Item → List Token
  | token t => [t]
  | group ts _ => .symbol '(' :: ts ++ [.symbol ')']

/-- The formula of a term. -/
def Formula.ofItems : List Item → Option Formula
  | [] => none
  | .group ts f :: is =>
    some (if is.isEmpty then f else atom ((Item.group ts f :: is).flatMap Item.tokens))
  | .token t :: is =>
    if t = .word "NOT" then (ofItems is).map not
    else if is.isEmpty ∧ t = .word "TRUE" then some (constant true)
    else if is.isEmpty ∧ t = .word "FALSE" then some (constant false)
    else some (atom ((Item.token t :: is).flatMap Item.tokens))

/-- What was read since a parenthesis that is still open. -/
structure Level where
  tokens : List Token := []
  alternatives : List Formula := []
  /-- The conjuncts of the alternative that is being read. -/
  conjuncts : List Formula := []
  /-- The parts of the conjunct that is being read. -/
  term : List Item := []
  /-- Whether the next AND belongs to a BETWEEN. -/
  range : Bool := false

namespace Level

variable (l : Level)

def push (is : List Item) : Level :=
  { l with tokens := l.tokens ++ is.flatMap Item.tokens, term := l.term ++ is }

def separate (t : Token) : Level := { l with tokens := l.tokens ++ [t] }

def endConjunct : Option Level :=
  if l.range then none
  else (Formula.ofItems l.term).map fun f =>
    { l with conjuncts := l.conjuncts ++ [f], term := [] }

def endAlternative : Option Level :=
  l.endConjunct.map fun l =>
    { l with alternatives := l.alternatives ++ [.conjunction l.conjuncts], conjuncts := [] }

def formula? : Option Formula := l.endAlternative.map fun l => .disjunction l.alternatives

end Level

/-- Goes on with a token at a level within others, the innermost first. -/
def Formula.step : Level × List Level → Token → Option (Level × List Level)
  | (l, outer), t =>
    match t.role with
    | .opens => some ({}, l :: outer)
    | .closes =>
      match outer with
      | [] => none
      | l' :: outer => l.formula?.map fun f => (l'.push [.group l.tokens f], outer)
    | .and =>
      if l.range then some (({ l with range := false } : Level).push [.token t], outer)
      else l.endConjunct.map fun l => (l.separate t, outer)
    | .or => l.endAlternative.map fun l => (l.separate t, outer)
    | .range => some (({ l with range := true } : Level).push [.token t], outer)
    | .part => some (l.push [.token t], outer)

/-- The formula that tokens are read as, if all parentheses are closed. -/
def Formula.read (ts : List Token) : Option Formula :=
  match ts.foldlM step ({}, []) with
  | some (l, []) => l.formula?
  | _ => none

open Formula

/-! ### Terms -/

variable {ts us : List Token} {is js : List Item}

theorem Level.push_push (l : Level) : (l.push is).push js = l.push (is ++ js) := by
  simp [push, List.append_assoc]

theorem Level.endConjunct_eq_some {l l' : Level} :
    l.endConjunct = some l' ↔
      l.range = false ∧ ∃ f, ofItems l.term = some f ∧
        { l with conjuncts := l.conjuncts ++ [f], term := [] } = l' := by
  unfold endConjunct
  cases l.range with
  | true => simp
  | false => simp

theorem Level.tokens_of_endAlternative {l l' : Level} (h : l.endAlternative = some l') :
    l'.tokens = l.tokens := by
  obtain ⟨l₁, h₁, rfl⟩ := Option.map_eq_some_iff.1 h
  obtain ⟨_, f, _, rfl⟩ := endConjunct_eq_some.1 h₁
  rfl

/-- The tokens are read as the next parts of the term that is being read. -/
structure Shifts (ts : List Token) (is : List Item) : Prop where
  tokens : is.flatMap Item.tokens = ts
  run (l : Level) (outer : List Level) :
    l.range = false → ts.foldlM step (l, outer) = some (l.push is, outer)

namespace Shifts

theorem append (h : Shifts ts is) (h' : Shifts us js) : Shifts (ts ++ us) (is ++ js) where
  tokens := by rw [List.flatMap_append, h.tokens, h'.tokens]
  run l outer hl := by
    rw [List.foldlM_append, h.run l outer hl]
    exact (h'.run (l.push is) outer hl).trans (by rw [Level.push_push])

theorem token {t : Token} (ht : t.role = .part) : Shifts [t] [.token t] where
  tokens := rfl
  run l outer _ := by simp [step, ht]

theorem parts (hts : ∀ t ∈ ts, t.role = .part) : Shifts ts (ts.map .token) := by
  induction ts with
  | nil => exact ⟨rfl, fun l _ _ => by simp [Level.push]⟩
  | cons t ts ih =>
    obtain ⟨ht, hts⟩ := List.forall_mem_cons.1 hts
    exact (token ht).append (ih hts)

/-- The AND of a BETWEEN does not end the term. -/
theorem between {t u : Token} (ht : t.role = .part) (hu : u.role = .part) :
    Shifts [.word "BETWEEN", t, .word "AND", u]
      ([.word "BETWEEN", t, .word "AND", u].map .token) where
  tokens := rfl
  run l outer hl := by
    have hbetween : (Token.word "BETWEEN").role = .range := by decide
    have hand : (Token.word "AND").role = .and := by decide
    simp [step, hbetween, hand, ht, hu, Level.push, hl, List.append_assoc]

end Shifts

/-! ### Conjunctions and disjunctions -/

/-- The tokens are read as one term. -/
def ReadsTerm (ts : List Token) (f : Formula) : Prop := ∃ is, Shifts ts is ∧ ofItems is = some f

/-- The tokens are read as the next conjuncts of an alternative, whatever stands before them at the
same level. The last conjunct is complete only when its level says so. -/
def ReadsConjuncts (ts : List Token) (fs : List Formula) : Prop :=
  ∀ (l : Level) (outer : List Level), l.term = [] → l.range = false →
    ∃ l', ts.foldlM step (l, outer) = some (l', outer) ∧
      l'.endConjunct = some { l with tokens := l.tokens ++ ts, conjuncts := l.conjuncts ++ fs }

/-- The tokens are read as the next alternatives of a condition, whatever stands before them. -/
def ReadsAlternatives (ts : List Token) (fs : List Formula) : Prop :=
  ∀ (l : Level) (outer : List Level), l.conjuncts = [] → l.term = [] → l.range = false →
    ∃ l', ts.foldlM step (l, outer) = some (l', outer) ∧
      l'.endAlternative =
        some { l with tokens := l.tokens ++ ts, alternatives := l.alternatives ++ fs }

theorem ReadsTerm.conjuncts {f : Formula} (h : ReadsTerm ts f) : ReadsConjuncts ts [f] := by
  obtain ⟨is, his, hf⟩ := h
  intro l outer hterm hrange
  refine ⟨l.push is, his.run l outer hrange, ?_⟩
  simp [Level.endConjunct, Level.push, hterm, hrange, hf, his.tokens]

/-- A term that begins with a name or a placeholder is an atom. -/
theorem ReadsTerm.of_shifts {t : Token} (h : Shifts (t :: ts) (.token t :: is))
    (ht : t.isFixed = false) : ReadsTerm (t :: ts) (.atom (t :: ts)) := by
  have hword (s : String) : t ≠ .word s := by
    rintro rfl
    cases ht
  refine ⟨.token t :: is, h, ?_⟩
  rw [ofItems, if_neg (hword _), if_neg fun h => hword _ h.2, if_neg fun h => hword _ h.2, h.tokens]

variable {fs gs : List Formula}

theorem ReadsConjuncts.append (h : ReadsConjuncts ts fs) (h' : ReadsConjuncts us gs) :
    ReadsConjuncts (ts ++ .word "AND" :: us) (fs ++ gs) := by
  intro l outer hterm hrange
  obtain ⟨l₁, hrun₁, hend₁⟩ := h l outer hterm hrange
  have hand : (Token.word "AND").role = .and := by decide
  have hstep : step (l₁, outer) (.word "AND") = some
      ({ l with tokens := l.tokens ++ ts ++ [.word "AND"], conjuncts := l.conjuncts ++ fs },
        outer) := by
    have hrange₁ : l₁.range = false := (Level.endConjunct_eq_some.1 hend₁).1
    simp [step, hand, hrange₁, hend₁, Level.separate]
  obtain ⟨l₂, hrun₂, hend₂⟩ := h' { l with
    tokens := l.tokens ++ ts ++ [.word "AND"], conjuncts := l.conjuncts ++ fs } outer hterm hrange
  refine ⟨l₂, ?_, ?_⟩
  · rw [List.foldlM_append, hrun₁]
    exact (congrArg (· >>= fun r => us.foldlM step r) hstep).trans hrun₂
  · rw [hend₂]
    simp [List.append_assoc]

theorem ReadsConjuncts.alternatives (h : ReadsConjuncts ts fs) :
    ReadsAlternatives ts [.conjunction fs] := by
  intro l outer hconjuncts hterm hrange
  obtain ⟨l', hrun, hend⟩ := h l outer hterm hrange
  refine ⟨l', hrun, ?_⟩
  rw [Level.endAlternative, hend]
  simp [hconjuncts]

theorem ReadsTerm.alternatives {f : Formula} (h : ReadsTerm ts f) : ReadsAlternatives ts [f] :=
  h.conjuncts.alternatives

theorem ReadsAlternatives.append (h : ReadsAlternatives ts fs) (h' : ReadsAlternatives us gs) :
    ReadsAlternatives (ts ++ .word "OR" :: us) (fs ++ gs) := by
  intro l outer hconjuncts hterm hrange
  obtain ⟨l₁, hrun₁, hend₁⟩ := h l outer hconjuncts hterm hrange
  have hor : (Token.word "OR").role = .or := by decide
  have hstep : step (l₁, outer) (.word "OR") = some
      ({ l with tokens := l.tokens ++ ts ++ [.word "OR"], alternatives := l.alternatives ++ fs },
        outer) := by
    simp [step, hor, hend₁, Level.separate]
  obtain ⟨l₂, hrun₂, hend₂⟩ := h' { l with
    tokens := l.tokens ++ ts ++ [.word "OR"], alternatives := l.alternatives ++ fs }
    outer hconjuncts hterm hrange
  refine ⟨l₂, ?_, ?_⟩
  · rw [List.foldlM_append, hrun₁]
    exact (congrArg (· >>= fun r => us.foldlM step r) hstep).trans hrun₂
  · rw [hend₂]
    simp [List.append_assoc]

theorem ReadsAlternatives.read_eq (h : ReadsAlternatives ts fs) :
    read ts = some (.disjunction fs) := by
  obtain ⟨l, hrun, hend⟩ := h {} [] rfl rfl rfl
  rw [Formula.read, hrun]
  simp [Level.formula?, hend]

example : (lex "NOT a = 1 AND b BETWEEN 2 AND 3 OR (c OR d)").bind read = some (.any [
    .all [.not (.atom [.word "a", .symbol '=', .word "1"]),
      .atom [.word "b", .word "BETWEEN", .word "2", .word "AND", .word "3"]],
    .any [.atom [.word "c"], .atom [.word "d"]]]) := by
  rfl

/-- Parentheses make a term of a condition. -/
theorem ReadsAlternatives.group (h : ReadsAlternatives ts fs) :
    Shifts (.symbol '(' :: ts ++ [.symbol ')']) [.group ts (.disjunction fs)] where
  tokens := by simp [Item.tokens]
  run l outer _ := by
    obtain ⟨l', hrun, hend⟩ := h {} (l :: outer) rfl rfl rfl
    have hopens : (Token.symbol '(').role = .opens := by decide
    have hcloses : (Token.symbol ')').role = .closes := by decide
    have htokens : l'.tokens = ts := (Level.tokens_of_endAlternative hend).symm
    have hopen : step (l, outer) (.symbol '(') = some ({}, l :: outer) := by simp [step, hopens]
    have hclose : step (l', l :: outer) (.symbol ')') =
        some (l.push [.group ts (.disjunction fs)], outer) := by
      simp [step, hcloses, Level.formula?, hend, htokens]
    rw [List.cons_append, List.foldlM_cons, hopen]
    show (ts ++ [Token.symbol ')']).foldlM step ({}, l :: outer) = _
    rw [List.foldlM_append, hrun]
    show [Token.symbol ')'].foldlM step (l', l :: outer) = _
    rw [List.foldlM_cons, hclose]
    rfl

/-- Behind a part of a term parentheses belong to the term. -/
theorem ReadsTerm.call {t : Token} (hts : ∀ u ∈ t :: ts, u.role = .part)
    (ht : t.isFixed = false) (hus : ReadsAlternatives us fs) :
    ReadsTerm (t :: ts ++ .symbol '(' :: us ++ [.symbol ')'])
      (.atom (t :: ts ++ .symbol '(' :: us ++ [.symbol ')'])) := by
  have hshifts := (Shifts.parts hts).append hus.group
  rw [← List.append_assoc] at hshifts
  exact of_shifts hshifts ht

end RowQuery.Sql
