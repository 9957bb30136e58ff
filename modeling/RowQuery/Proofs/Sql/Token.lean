import RowQuery.Sql.Fragment

/-!
# Tokens of a statement

How a statement is read from left to right: names in double quotes, in which two quotes stand for
one, placeholders, words and single symbols. Reading goes on in parts (`lexFrom_append`), and a
quoted name is read as one token whatever characters it has (`scan_quoteName`).
-/

namespace RowQuery.Sql

inductive Token where
  /-- A name in quotes. -/
  | name (s : String)
  /-- A placeholder with its number. -/
  | parameter (n : Nat)
  /-- A keyword, a number or a name without quotes. -/
  | word (s : String)
  | symbol (c : Char)
deriving DecidableEq, Repr

def Token.name? : Token → Option String
  | name s => some s
  | _ => none

def Token.parameter? : Token → Option Nat
  | parameter n => some n
  | _ => none

/-- Whether the token is neither a name in quotes nor a placeholder. -/
def Token.isFixed : Token → Bool
  | word _ | symbol _ => true
  | name _ | parameter _ => false

/-- What is being read, with the characters so far. -/
inductive Mode where
  | between
  | word (cs : List Char)
  | parameter (cs : List Char)
  | name (cs : List Char)
  /-- A quote in a name, which ends the name unless another quote follows. -/
  | quote (cs : List Char)
deriving DecidableEq, Repr

def isWordChar (c : Char) : Bool := c.isAlphanum || c == '_' || decide (128 ≤ c.toNat)

namespace Mode

/-- The token that is complete if nothing more belongs to it. -/
def pending : Mode → List Token
  | between | name _ => []
  | word cs => [.word (.ofList cs)]
  | parameter [] => [.symbol '$']
  | parameter cs => [.parameter (Nat.ofDigitChars 10 cs 0)]
  | quote cs => [.name (.ofList cs)]

/-- Goes on with the same token, if the character belongs to it. -/
def extend? (c : Char) : Mode → Option Mode
  | between => none
  | word cs => if isWordChar c || c == '$' then some (word (cs ++ [c])) else none
  | parameter cs => if c.isDigit then some (parameter (cs ++ [c])) else none
  | name cs => some (if c = '"' then quote cs else name (cs ++ [c]))
  | quote cs => if c = '"' then some (name (cs ++ [c])) else none

/-- The character begins a token, is one, or stands between two. -/
def start (c : Char) : List Token × Mode :=
  if c = '"' then ([], name [])
  else if c = '$' then ([], parameter [])
  else if isWordChar c then ([], word [c])
  else if c.isWhitespace then ([], between)
  else ([.symbol c], between)

def step (m : Mode) (c : Char) : List Token × Mode :=
  match m.extend? c with
  | some m' => ([], m')
  | none => (m.pending ++ (start c).1, (start c).2)

end Mode

/-- The tokens that are complete after some characters, and what is being read then. -/
def scan : Mode → List Char → List Token × Mode
  | m, [] => ([], m)
  | m, c :: cs => ((m.step c).1 ++ (scan (m.step c).2 cs).1, (scan (m.step c).2 cs).2)

/-- The tokens of a text that is read to its end; there are none if a name is not closed. -/
def lexFrom (m : Mode) (cs : List Char) : Option (List Token) :=
  match scan m cs with
  | (_, .name _) => none
  | (ts, m') => some (ts ++ m'.pending)

def lex (s : String) : Option (List Token) := lexFrom .between s.toList

/-! ### Reading in parts -/

theorem scan_append (m : Mode) (xs ys : List Char) :
    scan m (xs ++ ys) =
      ((scan m xs).1 ++ (scan (scan m xs).2 ys).1, (scan (scan m xs).2 ys).2) := by
  induction xs generalizing m with
  | nil => rfl
  | cons c xs ih => simp [scan, ih, List.append_assoc]

theorem lexFrom_append (m : Mode) (xs ys : List Char) :
    lexFrom m (xs ++ ys) = (lexFrom (scan m xs).2 ys).map ((scan m xs).1 ++ ·) := by
  unfold lexFrom
  rw [scan_append]
  rcases scan (scan m xs).2 ys with ⟨ts, m'⟩
  cases m' <;> simp [List.append_assoc]

/-- A character that does not belong to a token ends it. -/
theorem lexFrom_cons_of_extend?_eq_none {m : Mode} {c : Char} (h : m.extend? c = none)
    (cs : List Char) :
    lexFrom m (c :: cs) = (lexFrom .between (c :: cs)).map (m.pending ++ ·) := by
  have hstep : m.step c = (m.pending ++ (Mode.start c).1, (Mode.start c).2) := by
    simp [Mode.step, h]
  have hbetween : Mode.between.step c = ((Mode.start c).1, (Mode.start c).2) := by
    simp [Mode.step, Mode.extend?, Mode.pending]
  have hcons (m : Mode) : lexFrom m (c :: cs) =
      (lexFrom (m.step c).2 cs).map ((m.step c).1 ++ ·) := by
    have happend := lexFrom_append m [c] cs
    simpa [scan] using happend
  rw [hcons, hcons, hstep, hbetween, Option.map_map]
  congr 1
  funext ts
  simp [List.append_assoc]

/-- Characters after which every token has ended, and which begin no other word. -/
def isBreak (c : Char) : Bool := !isWordChar c && c != '$' && c != '"'

theorem isWordChar_of_isDigit {c : Char} (h : c.isDigit = true) : isWordChar c = true := by
  simp [isWordChar, Char.isAlphanum, h]

theorem extend?_eq_none_of_isBreak {c : Char} (hc : isBreak c = true) {m : Mode}
    (hm : ∀ cs, m ≠ .name cs) : m.extend? c = none := by
  obtain ⟨⟨hword, hdollar⟩, hquote⟩ : (isWordChar c = false ∧ c ≠ '$') ∧ c ≠ '"' := by
    simpa [isBreak] using hc
  cases m with
  | between => rfl
  | word cs => simp [Mode.extend?, hword, hdollar]
  | parameter cs =>
    have hdigit : c.isDigit = false := by
      rw [Bool.eq_false_iff]
      intro hd
      rw [isWordChar_of_isDigit hd] at hword
      cases hword
    simp [Mode.extend?, hdigit]
  | name cs => exact absurd rfl (hm cs)
  | quote cs => simp [Mode.extend?, hquote]

theorem lexFrom_of_isBreak {m : Mode} (hm : ∀ cs, m ≠ .name cs) {cs : List Char}
    (hcs : cs.head?.all isBreak = true) :
    lexFrom m cs = (lexFrom .between cs).map (m.pending ++ ·) := by
  cases cs with
  | nil =>
    have hempty : lexFrom .between [] = some [] := rfl
    rw [hempty]
    cases m with
    | name cs => exact absurd rfl (hm cs)
    | _ => simp [lexFrom, scan]
  | cons c cs => exact lexFrom_cons_of_extend?_eq_none (extend?_eq_none_of_isBreak hcs hm) cs

/-! ### Names and placeholders -/

theorem scan_name (acc cs : List Char) :
    scan (.name acc) (cs.flatMap fun c => if c = '"' then ['"', '"'] else [c]) =
      ([], .name (acc ++ cs)) := by
  induction cs generalizing acc with
  | nil => simp [scan]
  | cons c cs ih =>
    rw [List.flatMap_cons, scan_append]
    by_cases hc : c = '"'
    · subst hc
      have hquotes : scan (.name acc) ['"', '"'] = ([], .name (acc ++ ['"'])) := by
        simp [scan, Mode.step, Mode.extend?]
      rw [if_pos rfl, hquotes, ih]
      simp
    · have hchar : scan (.name acc) [c] = ([], .name (acc ++ [c])) := by
        simp [scan, Mode.step, Mode.extend?, hc]
      rw [if_neg hc, hchar, ih]
      simp

/-- After its quotes a name is complete, unless another quote follows. -/
theorem scan_quoteName (s : String) :
    scan .between (quoteName s).toList = ([], .quote s.toList) := by
  have hopen : Mode.between.step '"' = ([], .name []) := rfl
  have hclose : scan (.name s.toList) ['"'] = ([], .quote s.toList) := by
    simp [scan, Mode.step, Mode.extend?]
  rw [quoteName, String.toList_ofList, List.cons_append, scan, hopen, scan_append, scan_name]
  exact hclose

theorem scan_digits (acc ds : List Char) (hds : ∀ d ∈ ds, d.isDigit = true) :
    scan (.parameter acc) ds = ([], .parameter (acc ++ ds)) := by
  induction ds generalizing acc with
  | nil => simp [scan]
  | cons d ds ih =>
    obtain ⟨hd, hds⟩ := List.forall_mem_cons.1 hds
    have hstep : (Mode.parameter acc).step d = ([], .parameter (acc ++ [d])) := by
      simp [Mode.step, Mode.extend?, hd]
    rw [scan, hstep, ih _ hds]
    simp

theorem toList_toString (n : Nat) : (toString n).toList = Nat.toDigits 10 n := by
  simp [toString]

theorem scan_placeholder (n : Nat) :
    scan .between ("$" ++ toString n).toList = ([], .parameter (Nat.toDigits 10 n)) := by
  have hopen : Mode.between.step '$' = ([], .parameter []) := rfl
  have htext : ("$" ++ toString n).toList = '$' :: Nat.toDigits 10 n := by
    rw [String.toList_append, toList_toString]
    rfl
  have hdigits : ∀ d ∈ Nat.toDigits 10 n, d.isDigit = true :=
    fun d hd => Nat.isDigit_of_mem_toDigits (by decide) (by decide) hd
  rw [htext, scan, hopen, scan_digits _ _ hdigits]
  rfl

theorem pending_toDigits (n : Nat) :
    (Mode.parameter (Nat.toDigits 10 n)).pending = [.parameter n] := by
  have hvalue : Nat.ofDigitChars 10 (Nat.toDigits 10 n) 0 = n := Nat.ofDigitChars_ten_toDigits
  cases hds : Nat.toDigits 10 n with
  | nil => exact absurd hds Nat.toDigits_ne_nil
  | cons d ds =>
    rw [hds] at hvalue
    rw [Mode.pending, hvalue]
    exact List.cons_ne_nil d ds

end RowQuery.Sql
