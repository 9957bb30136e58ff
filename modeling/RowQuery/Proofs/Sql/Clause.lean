import RowQuery.Proofs.Sql.Formula
import RowQuery.Proofs.Sql.Operands

/-!
# The clauses of a statement

A statement has at most one condition, between WHERE and the clause after it. No clause begins
within the fragments that a statement is put together from, so the condition is found in the text of
the statement by its tokens alone (`readCondition_text_of_cons`).
-/

namespace RowQuery.Sql

open Fragment

/-! ### Clauses -/

/-- Whether a clause that follows the table begins with the token. -/
def Token.isClause (t : Token) : Bool :=
  t = .word "WHERE" || t = .word "ORDER" || t = .word "LIMIT" || t = .word "OFFSET"

/-- The tokens of the condition, if the first clause is one. -/
def conditionOf (ts : List Token) : Option (List Token) :=
  match ts.dropWhile fun t => !t.isClause with
  | [] => none
  | t :: ts => if t = .word "WHERE" then some (ts.takeWhile fun t => !t.isClause) else none

/-- Whether the tokens, if there are any, begin a clause other than a condition. -/
def startsClause (ts : List Token) : Bool := ts.head?.all fun t => t.isClause && t != .word "WHERE"

theorem startsClause_cons {t : Token} {ts : List Token} :
    startsClause (t :: ts) = true ↔ t.isClause = true ∧ t ≠ .word "WHERE" := by
  simp [startsClause]

theorem startsClause_append {ts us : List Token} (hts : startsClause ts = true)
    (hus : startsClause us = true) : startsClause (ts ++ us) = true := by
  cases ts with
  | nil => exact hus
  | cons t ts => exact hts

section Clauses

variable {front body back : List Token} (hfront : ∀ t ∈ front, t.isClause = false)
  (hback : startsClause back = true)

include hfront hback

theorem conditionOf_eq_none : conditionOf (front ++ back) = none := by
  rw [conditionOf, List.dropWhile_append_of_pos fun t ht => by rw [hfront t ht]; rfl]
  cases back with
  | nil => rfl
  | cons t back =>
    obtain ⟨hclause, hwhere⟩ := startsClause_cons.1 hback
    rw [List.dropWhile_cons_of_neg (by simp [hclause])]
    exact if_neg hwhere

theorem conditionOf_eq_some (hbody : ∀ t ∈ body, t.isClause = false) :
    conditionOf (front ++ .word "WHERE" :: body ++ back) = some body := by
  have hdrop : (front ++ .word "WHERE" :: body ++ back).dropWhile (fun t => !t.isClause) =
      .word "WHERE" :: body ++ back := by
    rw [List.append_assoc, List.dropWhile_append_of_pos fun t ht => by rw [hfront t ht]; rfl]
    rfl
  have htake : (body ++ back).takeWhile (fun t => !t.isClause) = body := by
    rw [List.takeWhile_append_of_pos fun t ht => by rw [hbody t ht]; rfl]
    cases back with
    | nil => simp
    | cons t back => simp [(startsClause_cons.1 hback).1]
  rw [conditionOf, hdrop]
  exact congrArg some htake

end Clauses

/-- How the condition in the text of a statement is read, if there is one. -/
def readCondition (s : String) : Option (Option Formula) := do
  match conditionOf (← lex s) with
  | none => return none
  | some ts => return some (← Formula.read ts)

/-! ### Fixed text without certain tokens -/

/-- Whether all tokens of the fixed text in the piece pass the test. -/
def Piece.allText (P : Token → Bool) : Piece → Bool
  | text s => ((text s).tokens 0).all P
  | name _ | operand _ => true

namespace Fragment

variable {P : Token → Bool} {f g : Fragment}

def allText (P : Token → Bool) (f : Fragment) : Bool := f.all (Piece.allText P)

theorem allText_append (hf : f.allText P = true) (hg : g.allText P = true) :
    allText P (f ++ g) = true := by
  rw [allText, List.all_append, Bool.and_eq_true]
  exact ⟨hf, hg⟩

theorem allText_separated {separator : String}
    (hseparator : (Piece.text separator).allText P = true) :
    {fs : List Fragment} → (∀ f ∈ fs, f.allText P = true) →
      (separated separator fs).allText P = true
  | [], _ => rfl
  | [f], hfs => by simpa using hfs
  | f :: g :: fs, hfs => by
    obtain ⟨hf, hfs⟩ := List.forall_mem_cons.1 hfs
    have hrest : allText P (.text separator :: separated separator (g :: fs)) = true := by
      rw [allText, List.all_cons, Bool.and_eq_true]
      exact ⟨hseparator, allText_separated hseparator hfs⟩
    rw [separated_cons_cons]
    exact allText_append hf hrest

/-- If names and placeholders pass the test too, then all tokens do. -/
theorem all_tokens (hname : ∀ s, P (.name s) = true) (hparameter : ∀ n, P (.parameter n) = true)
    (hf : f.allText P = true) (n : Nat) : ∀ t ∈ f.tokens n, P t = true := by
  induction f generalizing n with
  | nil => exact nofun
  | cons p f ih =>
    rw [allText, List.all_cons, Bool.and_eq_true] at hf
    intro t ht
    rcases List.mem_append.1 ht with ht | ht
    · cases p with
      | text s => exact List.all_eq_true.1 hf.1 t ht
      | name s => rw [List.mem_singleton.1 ht, hname]
      | operand v => rw [List.mem_singleton.1 ht, hparameter]
    · exact ih hf.2 _ t ht

/-- Whether no clause begins in the fragment. -/
def isInner (f : Fragment) : Bool := f.allText fun t => !t.isClause

theorem isClause_of_mem_tokens (hf : f.isInner = true) (n : Nat) :
    ∀ t ∈ f.tokens n, t.isClause = false := by
  intro t ht
  simpa using all_tokens (fun _ => rfl) (fun _ => rfl) hf n t ht

end Fragment

theorem Test.allText_operandList {P : Token → Bool} (hP : P (.symbol ',') = true)
    (vs : List Value) : (operandList vs).allText P = true := by
  have hcomma : (Piece.text ", ").allText P = true := by
    show [Token.symbol ','].all P = true
    simp [hP]
  refine allText_separated hcomma fun f hf => ?_
  obtain ⟨v, _, rfl⟩ := List.mem_map.1 hf
  rfl

theorem Test.isInner_fragment (t : Test) : t.fragment.isInner = true := by
  induction t with
  | compare c s v => cases s <;> rfl
  | null negated c => cases negated <;> rfl
  | like c ignoreCase pattern => cases ignoreCase <;> rfl
  | oneOf negated c vs =>
    have hvs : (operandList vs).isInner = true := allText_operandList rfl vs
    cases negated with
    | false => exact allText_append (allText_append (g := .text " IN (" :: _) rfl hvs) rfl
    | true => exact allText_append (allText_append (g := .text " NOT IN (" :: _) rfl hvs) rfl
  | overlap c vs =>
    have hvs : (operandList vs).isInner = true := allText_operandList rfl vs
    exact allText_append (allText_append (g := .text " && ARRAY[" :: _) rfl hvs) rfl
  | constant b => cases b <;> rfl
  | not t ih => exact allText_append (f := .text "NOT (" :: t.fragment) ih rfl
  | between c low high => rfl
  | element v c => rfl

namespace Where

theorem isInner_conjunction (ts : List Test) : (conjunction ts).isInner = true := by
  refine allText_separated rfl fun f hf => ?_
  obtain ⟨t, _, rfl⟩ := List.mem_map.1 hf
  exact t.isInner_fragment

theorem isInner_alternative (ts : List Test) : (alternative ts).isInner = true := by
  match ts with
  | [] => rfl
  | [t] => exact t.isInner_fragment
  | t :: t' :: ts =>
    exact allText_append (f := .text "(" :: _) (isInner_conjunction (t :: t' :: ts)) rfl

end Where

namespace Select

variable (s : Select)

theorem isInner_front : s.front.isInner = true := by
  have houtputs : (separated ", " (s.outputs.map Output.fragment)).isInner = true := by
    refine allText_separated rfl fun f hf => ?_
    obtain ⟨o, _, rfl⟩ := List.mem_map.1 hf
    cases o <;> rfl
  have hjoins : Fragment.isInner (s.joins.flatMap Join.fragment) = true := by
    rw [isInner, allText, List.all_flatMap, List.all_eq_true]
    exact fun j _ => rfl
  exact allText_append (allText_append (f := .text "SELECT " :: _) houtputs rfl) hjoins

theorem startsClause_numberClause {keyword : String}
    (hscan : scan .between (" " ++ keyword ++ " ").toList = ([.word keyword], .between))
    (hclause : startsClause [.word keyword] = true) (number : Option UInt64) (n : Nat) :
    startsClause ((numberClause keyword number).tokens n) = true := by
  cases number with
  | none => rfl
  | some k =>
    rw [numberClause, tokens, Piece.tokens, String.toList_append, scan_append, hscan]
    exact hclause

theorem startsClause_orderClause (order : List OrderBy) (n : Nat) :
    startsClause ((orderClause order).tokens n) = true := by
  cases order with
  | nil => rfl
  | cons o order => rfl

theorem startsClause_back (n : Nat) : startsClause (s.back.tokens n) = true := by
  rw [back, tokens_append, tokens_append]
  refine startsClause_append (startsClause_append (startsClause_orderClause _ _) ?limit) ?offset
  case limit => exact startsClause_numberClause rfl rfl s.limit _
  case offset => exact startsClause_numberClause rfl rfl s.offset _

theorem lex_text :
    lex s.text = some (s.front.tokens 0 ++ s.condition.fragment.tokens 0 ++
      s.back.tokens s.condition.fragment.operands.length) := by
  have hlex := lex_textAfter s.spaced_fragment 0
  rw [fragment_eq, tokens_append, tokens_append, operands_append, operands_front] at hlex
  rw [text, Fragment.text, fragment_eq, hlex]
  simp

theorem readCondition_text_of_nil (h : s.condition.fragment = []) :
    readCondition s.text = some none := by
  have hnone : conditionOf (s.front.tokens 0 ++ s.back.tokens 0) = none :=
    conditionOf_eq_none (isClause_of_mem_tokens s.isInner_front 0) (s.startsClause_back 0)
  rw [readCondition, lex_text, h]
  simp [tokens, hnone]

/-- The condition is found between the clauses of the statement. -/
theorem readCondition_text_of_cons {body : Fragment}
    (h : s.condition.fragment = .text " WHERE " :: body) (hbody : body.isInner = true) :
    readCondition s.text = (Formula.read (body.tokens 0)).map some := by
  have hfront := isClause_of_mem_tokens s.isInner_front 0
  have hback := s.startsClause_back body.operands.length
  have hsome := conditionOf_eq_some hfront hback (isClause_of_mem_tokens hbody 0)
  have htokens : tokens 0 (.text " WHERE " :: body) = .word "WHERE" :: body.tokens 0 := rfl
  rw [readCondition, lex_text, h, htokens, operands_text]
  simp only [Option.bind_eq_bind, Option.bind_some, hsome]
  exact Option.map_eq_bind.symm

end Select

end RowQuery.Sql
