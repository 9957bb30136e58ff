import Mathlib.Data.List.Infix
import RowQuery.Proofs.Sql.Leaves

/-!
# Patterns match their text literally

A pattern of a statement is read part by part: a percent sign stands for any text, an underscore for
any one character, and a backslash takes the next character as it is. A text with its wildcards
escaped is read as its own characters, whatever follows it (`parse?_flatMap_append`). So the pattern
that an operator is bound with matches the strings that start with, end with or contain the text of
the operator, and no others (`Pattern.isMatch_wildcards_iff`).
-/

namespace RowQuery

namespace Sql

/-- A part of a pattern. -/
inductive LikePart where
  | anyText
  | anyChar
  | literal (c : Char)
deriving DecidableEq, Repr

namespace LikePart

/-- The parts of a pattern. A backslash at its end has nothing to take, and there are none. -/
def parse? : List Char → Option (List LikePart)
  | [] => some []
  | '%' :: cs => (parse? cs).map (.anyText :: ·)
  | '_' :: cs => (parse? cs).map (.anyChar :: ·)
  | ['\\'] => none
  | '\\' :: c :: cs => (parse? cs).map (.literal c :: ·)
  | c :: cs => (parse? cs).map (.literal c :: ·)

/-- Whether a text as a whole is what the parts stand for, one after the other. -/
def isMatch : List LikePart → List Char → Bool
  | [], cs => cs.isEmpty
  | .anyText :: ps, cs => cs.tails.any (isMatch ps)
  | .anyChar :: ps, cs => cs.tail?.any (isMatch ps)
  | .literal c :: ps, cs => cs.head? == some c && cs.tail?.any (isMatch ps)

variable {ps : List LikePart} {cs : List Char}

/-! ### Reading -/

/-- A character that is escaped where it has to be stands for itself. -/
theorem parse?_escapeWildcard_append (c : Char) (cs : List Char) :
    parse? (Pattern.escapeWildcard c ++ cs) = (parse? cs).map (.literal c :: ·) := by
  by_cases hc : c = '\\' ∨ c = '%' ∨ c = '_'
  · rw [Pattern.escapeWildcard, if_pos hc]
    rfl
  · rw [Pattern.escapeWildcard, if_neg hc]
    simp only [not_or] at hc
    simp only [List.cons_append, List.nil_append]
    rw [parse?]
    · exact hc.2.1
    · exact hc.2.2
    · rintro rfl
      exact absurd rfl hc.1
    · intro d ds h
      exact absurd h hc.1

/-- An escaped text stands for itself, whatever follows it. -/
theorem parse?_flatMap_append (t cs : List Char) :
    parse? (t.flatMap Pattern.escapeWildcard ++ cs) =
      (parse? cs).map (t.map .literal ++ ·) := by
  induction t with
  | nil => simp
  | cons c t ih =>
    rw [List.flatMap_cons, List.append_assoc, parse?_escapeWildcard_append, ih, Option.map_map]
    rfl

/-! ### Matching -/

@[simp] theorem isMatch_nil : isMatch [] cs = true ↔ cs = [] := List.isEmpty_iff

theorem isMatch_anyText :
    isMatch (.anyText :: ps) cs = true ↔ ∃ before after, cs = before ++ after ∧
      isMatch ps after = true := by
  simp only [isMatch, List.any_eq_true, List.mem_tails]
  constructor
  · rintro ⟨after, ⟨before, rfl⟩, h⟩
    exact ⟨before, after, rfl, h⟩
  · rintro ⟨before, after, rfl, h⟩
    exact ⟨after, ⟨before, rfl⟩, h⟩

/-- A percent sign at the end of a pattern takes what is left. -/
@[simp] theorem isMatch_anyText_nil : isMatch [.anyText] cs = true :=
  isMatch_anyText.2 ⟨cs, [], by simp⟩

theorem isMatch_literals_append (t : List Char) :
    isMatch (t.map .literal ++ ps) cs = true ↔ ∃ r, cs = t ++ r ∧ isMatch ps r = true := by
  induction t generalizing cs with
  | nil => simp
  | cons c t ih =>
    cases cs with
    | nil => simp [isMatch]
    | cons d cs =>
      have hhead : isMatch ((c :: t).map .literal ++ ps) (d :: cs) = true ↔
          d = c ∧ isMatch (t.map .literal ++ ps) cs = true := by
        simp [isMatch]
      rw [hhead, ih]
      constructor
      · rintro ⟨rfl, r, rfl, h⟩
        exact ⟨r, rfl, h⟩
      · rintro ⟨r, hr, h⟩
        obtain ⟨rfl, rfl⟩ := List.cons.inj hr
        exact ⟨rfl, r, rfl, h⟩

theorem isMatch_literals (t : List Char) : isMatch (t.map .literal) cs = true ↔ cs = t := by
  have happend : isMatch (t.map .literal ++ []) cs = true ↔
      ∃ r, cs = t ++ r ∧ isMatch [] r = true :=
    isMatch_literals_append t
  rw [List.append_nil] at happend
  simp [happend]

end LikePart

end Sql

/-! ### Escaped texts -/

namespace Pattern

open Sql

/-- A text with another one in the place of every `c`. -/
def replaceChar (c : Char) (replacement cs : List Char) : List Char :=
  cs.flatMap fun d => if d = c then replacement else [d]

/-- Wildcards can be escaped one sort after the other, if backslashes come first, so that those put
before the others are not escaped again. -/
theorem flatMap_escapeWildcard (cs : List Char) :
    cs.flatMap escapeWildcard =
      replaceChar '_' ['\\', '_']
        (replaceChar '%' ['\\', '%'] (replaceChar '\\' ['\\', '\\'] cs)) := by
  simp only [replaceChar, List.flatMap_assoc]
  refine List.flatMap_congr fun c _ => ?_
  by_cases hbackslash : c = '\\'
  · subst hbackslash
    rfl
  by_cases hpercent : c = '%'
  · subst hpercent
    rfl
  by_cases hunderscore : c = '_'
  · subst hunderscore
    rfl
  simp [escapeWildcard, hbackslash, hpercent, hunderscore]

/-- The parts of a pattern with wildcards: its text, with any text on the sides that are open. -/
def parts (p : Pattern) : List LikePart :=
  let ps := p.text.toList.map .literal
  match p.kind with
  | .startsWith => ps ++ [.anyText]
  | .endsWith => .anyText :: ps
  | .contains => .anyText :: ps ++ [.anyText]

theorem parse?_wildcards (p : Pattern) : LikePart.parse? p.wildcards.toList = some p.parts := by
  obtain ⟨kind, text, ignoreCase⟩ := p
  have hescaped (cs : List Char) := LikePart.parse?_flatMap_append text.toList cs
  have hend := hescaped []
  rw [List.append_nil] at hend
  cases kind with
  | startsWith => simp [wildcards, parts, hescaped, LikePart.parse?]
  | endsWith => simp [wildcards, parts, hend, LikePart.parse?]
  | contains => simp [wildcards, parts, hescaped, LikePart.parse?]

/-- The strings that a pattern is meant to find. -/
def Finds (p : Pattern) (s : String) : Prop :=
  match p.kind with
  | .startsWith => ∃ after, s = p.text ++ after
  | .endsWith => ∃ before, s = before ++ p.text
  | .contains => ∃ before after, s = before ++ p.text ++ after

theorem isMatch_parts (p : Pattern) (s : String) :
    LikePart.isMatch p.parts s.toList = true ↔ p.Finds s := by
  have hstring {P : List Char → Prop} : (∃ cs, P cs) ↔ ∃ t : String, P t.toList :=
    ⟨fun ⟨cs, h⟩ => ⟨String.ofList cs, by rwa [String.toList_ofList]⟩, fun ⟨t, h⟩ => ⟨_, h⟩⟩
  obtain ⟨kind, text, ignoreCase⟩ := p
  cases kind with
  | startsWith =>
    simp only [parts, Finds, LikePart.isMatch_literals_append, LikePart.isMatch_anyText_nil,
      and_true, hstring, ← String.toList_append, String.toList_inj]
  | endsWith =>
    simp only [parts, Finds, LikePart.isMatch_anyText, LikePart.isMatch_literals,
      exists_eq_right, hstring, ← String.toList_append, String.toList_inj]
  | contains =>
    simp only [parts, Finds, List.cons_append, LikePart.isMatch_anyText,
      LikePart.isMatch_literals_append, LikePart.isMatch_anyText_nil, and_true, hstring]
    constructor
    · rintro ⟨before, rest, hs, after, hrest⟩
      exact ⟨before, after, String.toList_injective (by simp [hs, hrest])⟩
    · rintro ⟨before, after, rfl⟩
      exact ⟨before, text ++ after, by simp, after, by simp⟩

/-- The pattern that a statement is bound with for an operator, however it is negated, is read
without fail, and it matches the strings that start with, end with or contain the text. -/
theorem isMatch_wildcards_iff (p : Pattern) :
    (∀ c negated, (Test.ofOperator c negated (.like p)).fragment.operands =
        [.string p.wildcards]) ∧
      (p.text.toList.flatMap escapeWildcard =
        replaceChar '_' ['\\', '_']
          (replaceChar '%' ['\\', '%'] (replaceChar '\\' ['\\', '\\'] p.text.toList))) ∧
      ∃ ps, LikePart.parse? p.wildcards.toList = some ps ∧
        ∀ s : String, LikePart.isMatch ps s.toList = true ↔ p.Finds s := by
  refine ⟨fun c negated => ?_, flatMap_escapeWildcard _, _, parse?_wildcards p, isMatch_parts p⟩
  exact Test.operands_ofOperator c negated (.like p)

/-- Only the sign that is put behind the text is a wildcard. -/
example : (⟨.startsWith, "5%_\\", false⟩ : Pattern).wildcards = "5\\%\\_\\\\%" := by
  decide +kernel

end Pattern

end RowQuery
