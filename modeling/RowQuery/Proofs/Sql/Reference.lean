import RowQuery.Proofs.Sql.Clause

/-!
# The columns that a statement refers to

A name in a statement is introduced there, behind FROM, JOIN or AS, or it belongs to a reference: a
column of a table, or all columns of it. `references` finds the references among the tokens, and
those of a fragment are put together from those of its parts (`Refers.append`).
-/

namespace RowQuery.Sql

/-- A column as it is written; without a table if no table is named, and without a field if all
columns are meant. -/
structure Reference where
  table : Option String
  field : Option String
deriving DecidableEq, Repr

/-- The column under the name of its table. -/
def Column.reference (c : Column) : Reference := ⟨some c.table, some c.field⟩

/-- All columns of a table. -/
def Reference.row (table : String) : Reference := ⟨some table, none⟩

/-- Whether a name behind the token begins a reference, if it does not stand alone. It does not
behind a point, where it is a field, and behind the words that introduce a name. -/
def Token.precedes (t : Token) : Bool :=
  t != .symbol '.' && t != .word "FROM" && t != .word "JOIN" && t != .word "AS"

/-- Whether the token is no part of a reference. -/
def Token.isQuiet (t : Token) : Bool := t.name?.isNone && t.precedes

/-- The reference that a name begins, by what follows it. -/
def referenceAt (name : String) : List Token → Reference
  | .symbol '.' :: .name field :: _ => ⟨some name, some field⟩
  | .symbol '.' :: .symbol '*' :: _ => .row name
  | _ => ⟨none, some name⟩

/-- The references among tokens that stand behind the token `t`. -/
def referencesAfter (t : Token) : List Token → List Reference
  | [] => []
  | u :: ts =>
    (match u.name? with
      | some name => if t.precedes then [referenceAt name ts] else []
      | none => []) ++ referencesAfter u ts

/-- The references among the tokens of a statement, in their order. -/
def references : List Token → List Reference := referencesAfter (.word "")

/-! ### References in parts -/

theorem referenceAt_append {ts us : List Token} {name : String}
    (hts : ts.getLast? ≠ some (.symbol '.')) (hus : us.head? ≠ some (.symbol '.')) :
    referenceAt name (ts ++ us) = referenceAt name ts := by
  cases ts with
  | nil =>
    cases us with
    | nil => rfl
    | cons u us =>
      have hu : u ≠ .symbol '.' := fun h => hus (congrArg some h)
      rw [List.nil_append, referenceAt, referenceAt]
      all_goals simp [hu]
  | cons t ts =>
    cases ts with
    | nil =>
      have ht : t ≠ .symbol '.' := fun h => hts (congrArg some h)
      rw [referenceAt, referenceAt]
      all_goals simp [ht]
    | cons t' ts =>
      -- what begins a reference stands among the first two tokens
      rw [List.cons_append, List.cons_append]
      unfold referenceAt
      split <;> simp_all

theorem referencesAfter_append {t : Token} {ts us : List Token}
    (hts : ts.getLast? ≠ some (.symbol '.')) (hus : us.head? ≠ some (.symbol '.')) :
    referencesAfter t (ts ++ us) =
      referencesAfter t ts ++ referencesAfter (ts.getLast?.getD t) us := by
  induction ts generalizing t with
  | nil => rfl
  | cons u ts ih =>
    have htail : ts.getLast? ≠ some (.symbol '.') := by
      intro h
      rw [List.getLast?_cons, h] at hts
      exact hts rfl
    have hlast : (u :: ts).getLast?.getD t = ts.getLast?.getD u := by
      rw [List.getLast?_cons, Option.getD_some]
    rw [hlast, List.cons_append, referencesAfter, referencesAfter, ih htail, List.append_assoc]
    simp only [referenceAt_append htail hus]

namespace Fragment

variable {rs ss : List Reference} {f g : Fragment}

/-- The fragment refers to `rs`, wherever it stands behind a token that may precede a reference, and
it ends with such a token. -/
structure Refers (rs : List Reference) (f : Fragment) : Prop where
  references : ∀ n t, t.precedes = true → referencesAfter t (f.tokens n) = rs
  first : ∀ n, (f.tokens n).head? ≠ some (.symbol '.')
  last : ∀ n t, (f.tokens n).getLast? = some t → t.precedes = true

namespace Refers

theorem nil : Refers [] [] := ⟨fun _ _ _ => rfl, nofun, nofun⟩

theorem append (hf : Refers rs f) (hg : Refers ss g) : Refers (rs ++ ss) (f ++ g) := by
  have hpoint : ∀ n, (f.tokens n).getLast? ≠ some (.symbol '.') := by
    intro n h
    have hprecedes := hf.last n _ h
    cases hprecedes
  refine ⟨fun n t ht => ?_, fun n => ?_, fun n t ht => ?_⟩
  · have hlast : ((f.tokens n).getLast?.getD t).precedes = true := by
      cases h : (f.tokens n).getLast? with
      | none => exact ht
      | some u => exact hf.last n u h
    rw [tokens_append, referencesAfter_append (hpoint n) (hg.first _), hf.references n t ht,
      hg.references _ _ hlast]
  · rw [tokens_append, List.head?_append]
    cases h : (f.tokens n).head? with
    | none =>
      rw [Option.none_or]
      exact hg.first _
    | some u =>
      rw [Option.some_or, ← h]
      exact hf.first n
  · rw [tokens_append, List.getLast?_append] at ht
    cases h : (g.tokens (n + f.operands.length)).getLast? with
    | none =>
      rw [h, Option.none_or] at ht
      exact hf.last n t ht
    | some u =>
      rw [h, Option.some_or] at ht
      exact hg.last _ t (h.trans ht)

/-- Quiet tokens refer to nothing. -/
theorem of_quiet (hquiet : ∀ n, ∀ t ∈ f.tokens n, t.isQuiet = true) : Refers [] f := by
  have hparts : ∀ n, ∀ t ∈ f.tokens n, t.name? = none ∧ t.precedes = true := by
    intro n t ht
    simpa [Token.isQuiet] using hquiet n t ht
  refine ⟨fun n t ht => ?_, fun n h => ?_, fun n t ht => ?_⟩
  · clear ht
    have hall := hparts n
    generalize f.tokens n = ts at hall
    induction ts generalizing t with
    | nil => rfl
    | cons u ts ih =>
      obtain ⟨hu, hts⟩ := List.forall_mem_cons.1 hall
      rw [referencesAfter, hu.1, ih u hts]
      rfl
  · have hpoint := (hparts n _ (List.mem_of_mem_head? h)).2
    cases hpoint
  · exact (hparts n t (List.mem_of_getLast? ht)).2

theorem text {s : String} (h : (Piece.text s).allText Token.isQuiet = true) :
    Refers [] [.text s] := by
  refine of_quiet fun n t ht => ?_
  have htokens : tokens n [.text s] = (Piece.text s).tokens 0 := List.append_nil _
  rw [htokens] at ht
  exact List.all_eq_true.1 h t ht

theorem operand (v : Value) : Refers [] [.operand v] := by
  refine of_quiet fun n t ht => ?_
  rw [List.mem_singleton.1 ht]
  rfl

theorem column (c : Column) : Refers [c.reference] c.fragment := by
  refine ⟨fun n t ht => ?_, fun n => nofun, fun n t ht => ?_⟩
  · show referencesAfter t [.name c.table, .symbol '.', .name c.field] = [c.reference]
    simp only [referencesAfter, Token.name?, ht, if_true]
    rfl
  · cases ht
    rfl

theorem behind {s : String} (hs : Refers [] [.text s]) (hf : Refers rs f) :
    Refers rs (.text s :: f) :=
  hs.append hf

theorem before {s : String} (hf : Refers rs f) (hs : Refers [] [.text s]) :
    Refers rs (f ++ [.text s]) := by
  have h := hf.append hs
  rwa [List.append_nil] at h

theorem separated {separator : String} (hseparator : Refers [] [.text separator]) {α : Type}
    {items : α → List Reference} {fragment : α → Fragment} :
    {as : List α} → (∀ a ∈ as, Refers (items a) (fragment a)) →
      Refers (as.flatMap items) (Fragment.separated separator (as.map fragment))
  | [], _ => nil
  | [a], h => by simpa using h
  | a :: b :: as, h => by
    obtain ⟨ha, has⟩ := List.forall_mem_cons.1 h
    rw [List.map_cons, List.map_cons, separated_cons_cons, List.flatMap_cons]
    exact ha.append (hseparator.append (separated hseparator has))

end Refers

end Fragment

open Fragment

/-! ### Tests -/

namespace Test

/-- The columns of which the test is made. -/
def columns : Test → List Column
  | compare c _ _ | null _ c | between c _ _ | like c _ _ | oneOf _ c _ | element _ c
  | overlap c _ => [c]
  | constant _ => []
  | not t => t.columns

theorem refers_operandList (vs : List Value) : Refers [] (operandList vs) := by
  have hcomma : Refers [] [.text ", "] := .text rfl
  have h := hcomma.separated fun v (_ : v ∈ vs) => Refers.operand v
  have hnone : vs.flatMap (fun _ => ([] : List Reference)) = [] := by simp
  rwa [hnone] at h

/-- A test refers to its columns. -/
theorem refers_fragment (t : Test) : Refers (t.columns.map Column.reference) t.fragment := by
  induction t with
  | compare c s v =>
    have hsign : Refers [] [.text (" " ++ s.text ++ " ")] := .text (by cases s <;> rfl)
    exact (Refers.column c).append (hsign.behind (.operand v))
  | null negated c => exact (Refers.column c).before (.text (by cases negated <;> rfl))
  | between c low high =>
    have hand : Refers [] [.text " AND ", .operand high] := .behind (.text rfl) (.operand high)
    have hrange : Refers [] [.text " BETWEEN ", .operand low] := .behind (.text rfl) (.operand low)
    exact (Refers.column c).append (hrange.append hand)
  | like c ignoreCase pattern =>
    have hlike : Refers [] [.text (if ignoreCase then " ILIKE " else " LIKE ")] :=
      .text (by cases ignoreCase <;> rfl)
    exact (Refers.column c).append (hlike.behind (.operand _))
  | oneOf negated c vs =>
    have hin : Refers [] [.text (if negated then " NOT IN (" else " IN (")] :=
      .text (by cases negated <;> rfl)
    exact ((Refers.column c).append (hin.behind (refers_operandList vs))).before (.text rfl)
  | element v c =>
    have hany : Refers [] [.operand v, .text " = ANY("] := (Refers.operand v).before (.text rfl)
    exact (hany.append (.column c)).before (.text rfl)
  | overlap c vs =>
    have harray : Refers [] (.text " && ARRAY[" :: operandList vs) :=
      .behind (.text rfl) (refers_operandList vs)
    exact ((Refers.column c).append harray).before (.text rfl)
  | constant b => exact .text (by cases b <;> rfl)
  | not t ih => exact (Refers.behind (.text rfl) ih).before (.text rfl)

theorem columns_negate (negated : Bool) (t : Test) : (negate negated t).columns = t.columns := by
  cases negated <;> rfl

/-- An operator is a test of its column, unless an empty list decides without it. -/
theorem columns_ofOperator (c : Column) (negated : Bool) (o : Operator) :
    (ofOperator c negated o).columns = if o.readsColumn then [c] else [] := by
  induction o generalizing negated with
  | equal v =>
    unfold ofOperator
    split <;> rfl
  | oneOf vs => cases vs <;> rfl
  | arrayContainsAny vs =>
    rw [ofOperator, columns_negate]
    cases vs <;> rfl
  | between low high => exact columns_negate negated _
  | like p => exact columns_negate negated _
  | arrayContains v => exact columns_negate negated _
  | not o ih => exact ih !negated
  | _ => rfl

end Test

/-! ### Clauses -/

namespace Where

theorem refers_conjunction (ts : List Test) :
    Refers (ts.flatMap fun t => t.columns.map Column.reference) (conjunction ts) :=
  .separated (.text rfl) fun t _ => t.refers_fragment

theorem refers_alternative (ts : List Test) :
    Refers (ts.flatMap fun t => t.columns.map Column.reference) (alternative ts) := by
  match ts with
  | [] => exact .text rfl
  | [t] =>
    rw [List.flatMap_cons, List.flatMap_nil, List.append_nil]
    exact t.refers_fragment
  | t :: t' :: ts => exact (Refers.behind (.text rfl) (refers_conjunction _)).before (.text rfl)

/-- A condition that is not empty is one word and then what refers to the columns of its tests. -/
theorem fragment_cases (w : Where) :
    w.fragment = [] ∧ w.tests = [] ∨
      ∃ body : Fragment, w.fragment = .text " WHERE " :: body ∧ body.isInner = true ∧
        Refers (w.tests.flatMap fun t => t.columns.map Column.reference) body := by
  match w with
  | all [] => exact .inl ⟨rfl, rfl⟩
  | all (t :: ts) =>
    exact .inr ⟨_, rfl, isInner_conjunction (t :: ts), refers_conjunction (t :: ts)⟩
  | any [] => exact .inr ⟨_, rfl, rfl, .text rfl⟩
  | any (ts :: tss) =>
    have hor : Refers [] [.text " OR "] := .text rfl
    have h := hor.separated fun us (_ : us ∈ ts :: tss) => refers_alternative us
    have hinner : Fragment.isInner (separated " OR " ((ts :: tss).map alternative)) = true := by
      refine allText_separated rfl fun f hf => ?_
      obtain ⟨us, _, rfl⟩ := List.mem_map.1 hf
      exact isInner_alternative us
    rw [tests, List.flatten_eq_flatMap, List.flatMap_assoc]
    exact .inr ⟨_, rfl, hinner, h⟩

theorem refers_fragment (w : Where) :
    Refers (w.tests.flatMap fun t => t.columns.map Column.reference) w.fragment := by
  rcases w.fragment_cases with ⟨hnil, htests⟩ | ⟨body, hbody, _, hrefers⟩
  · rw [hnil, htests]
    exact .nil
  · rw [hbody]
    exact .behind (.text rfl) hrefers

end Where

namespace Output

def references : Output → List Reference
  | row => [.row root]
  | column field => [(Column.mk root field).reference]
  | keyOf j => [(Column.mk j.table j.shape.primaryKey).reference]
  | rowOf j => [.row j.table]

theorem refers_fragment (o : Output) : Refers o.references o.fragment := by
  cases o with
  | row =>
    refine ⟨fun n t ht => ?_, fun n => nofun, fun n t ht => ?_⟩
    · show referencesAfter t [.name root, .symbol '.', .symbol '*'] = [.row root]
      simp only [referencesAfter, Token.name?, ht, if_true]
      rfl
    · cases ht
      rfl
  | column field => exact .column _
  | keyOf j =>
    have has : Refers [] [.text " AS ", .name j.path] :=
      ⟨fun n t _ => rfl, fun n => nofun, fun n t ht => by cases ht; rfl⟩
    exact (Refers.column _).append has
  | rowOf j => exact ⟨fun n t _ => rfl, fun n => nofun, fun n t ht => by cases ht; rfl⟩

end Output

namespace Join

variable (j : Join)

/-- The two columns that the join compares. -/
def references : List Reference :=
  [(Column.mk j.table j.relation.foreignKey).reference,
    (Column.mk j.parent j.relation.localKey).reference]

theorem refers_fragment : Refers j.references j.fragment :=
  ⟨fun n t _ => rfl, fun n => nofun, fun n t ht => by cases ht; rfl⟩

end Join

theorem refers_joins (js : List Join) :
    Refers (js.flatMap Join.references) (js.flatMap Join.fragment) := by
  induction js with
  | nil => exact .nil
  | cons j js ih => exact j.refers_fragment.append ih

/-! ### Numbers -/

theorem scan_word {cs : List Char} (hcs : ∀ c ∈ cs, isWordChar c = true) (acc : List Char) :
    scan (.word acc) cs = ([], .word (acc ++ cs)) := by
  induction cs generalizing acc with
  | nil => simp [scan]
  | cons c cs ih =>
    obtain ⟨hc, hcs⟩ := List.forall_mem_cons.1 hcs
    have hstep : (Mode.word acc).step c = ([], .word (acc ++ [c])) := by
      simp [Mode.step, Mode.extend?, hc]
    rw [scan, hstep, ih hcs]
    simp

/-- A number is one word. -/
theorem scan_toString (n : Nat) :
    scan .between (toString n).toList = ([], .word (toString n).toList) := by
  have hdigits : ∀ d ∈ (toString n).toList, d.isDigit = true := by
    rw [toList_toString]
    exact fun d hd => Nat.isDigit_of_mem_toDigits (by decide) (by decide) hd
  have hne : (toString n).toList ≠ [] := by
    rw [toList_toString]
    exact Nat.toDigits_ne_nil
  cases h : (toString n).toList with
  | nil => exact absurd h hne
  | cons d ds =>
    rw [h] at hdigits
    obtain ⟨hd, hds⟩ := List.forall_mem_cons.1 hdigits
    have hquote : d ≠ '"' := by rintro rfl; cases hd
    have hdollar : d ≠ '$' := by rintro rfl; cases hd
    have hstep : Mode.between.step d = ([], .word [d]) := by
      simp [Mode.step, Mode.extend?, Mode.start, Mode.pending, hquote, hdollar,
        isWordChar_of_isDigit hd]
    rw [scan, hstep, scan_word fun c hc => isWordChar_of_isDigit (hds c hc)]
    rfl

theorem precedes_number (n : Nat) : (Token.word (toString n)).precedes = true := by
  have hdigits : ∀ d ∈ (toString n).toList, d.isDigit = true := by
    rw [toList_toString]
    exact fun d hd => Nat.isDigit_of_mem_toDigits (by decide) (by decide) hd
  have hne (s : String) (hs : s.toList.all Char.isDigit = false) : toString n ≠ s := by
    intro h
    rw [h, ← List.all_eq_true, hs] at hdigits
    cases hdigits
  have hfrom := hne "FROM" rfl
  have hjoin := hne "JOIN" rfl
  have has := hne "AS" rfl
  unfold Token.precedes
  generalize toString n = w at hfrom hjoin has
  simp [hfrom, hjoin, has]

namespace Select

theorem refers_numberClause {keyword : String}
    (hscan : scan .between (" " ++ keyword ++ " ").toList = ([.word keyword], .between))
    (hkeyword : (Token.word keyword).precedes = true) (number : Option UInt64) :
    Refers [] (numberClause keyword number) := by
  cases number with
  | none => exact .nil
  | some k =>
    refine .text ?_
    have hnumber : toString k = toString k.toNat := rfl
    have htokens : (Piece.text (" " ++ keyword ++ " " ++ toString k)).tokens 0 =
        [.word keyword, .word (toString k.toNat)] := by
      rw [hnumber, Piece.tokens, String.toList_append, scan_append, hscan, scan_toString,
        Mode.pending, String.ofList_toList]
      rfl
    rw [Piece.allText, htokens, List.all_cons, List.all_cons, Token.isQuiet, Token.isQuiet,
      hkeyword, precedes_number]
    rfl

theorem refers_orderClause (order : List OrderBy) :
    Refers (order.map fun o => (Column.mk root o.field).reference) (orderClause order) := by
  have hkey (o : OrderBy) : Refers [(Column.mk root o.field).reference] (orderFragment o) := by
    obtain ⟨field, direction⟩ := o
    cases direction with
    | asc => exact (Refers.column ⟨root, field⟩).before (s := " ASC") (.text rfl)
    | desc => exact (Refers.column ⟨root, field⟩).before (s := " DESC") (.text rfl)
  cases order with
  | nil => exact .nil
  | cons o os =>
    have hcomma : Refers [] [.text ", "] := .text rfl
    have h := hcomma.separated fun o' (_ : o' ∈ o :: os) => hkey o'
    rw [← List.map_eq_flatMap] at h
    exact .behind (.text rfl) h

variable (s : Select)

theorem refers_front :
    Refers (s.outputs.flatMap Output.references ++ s.joins.flatMap Join.references) s.front := by
  have hcomma : Refers [] [.text ", "] := .text rfl
  have houtputs := hcomma.separated fun o (_ : o ∈ s.outputs) => o.refers_fragment
  have hfrom : Refers [] [.text " FROM ", .name s.table, .text " AS ", .name root] :=
    ⟨fun n t _ => rfl, fun n => nofun, fun n t ht => by cases ht; rfl⟩
  have h := ((Refers.behind (s := "SELECT ") (.text rfl) houtputs).append hfrom).append
    (refers_joins s.joins)
  rwa [List.append_nil] at h

theorem refers_back :
    Refers (s.order.map fun o => (Column.mk root o.field).reference) s.back := by
  have hlimit : Refers [] (numberClause "LIMIT" s.limit) := refers_numberClause rfl rfl _
  have hoffset : Refers [] (numberClause "OFFSET" s.offset) := refers_numberClause rfl rfl _
  have h := ((refers_orderClause s.order).append hlimit).append hoffset
  rwa [List.append_nil, List.append_nil] at h

/-- A statement refers to the columns of its outputs, joins, tests and sort keys. -/
theorem refers_fragment :
    Refers (s.outputs.flatMap Output.references ++ s.joins.flatMap Join.references ++
      (s.condition.tests.flatMap fun t => t.columns.map Column.reference) ++
      s.order.map fun o => (Column.mk root o.field).reference) s.fragment := by
  rw [fragment_eq]
  exact (s.refers_front.append s.condition.refers_fragment).append s.refers_back

theorem references_eq {ts : List Token} (h : lex s.text = some ts) :
    references ts = s.outputs.flatMap Output.references ++ s.joins.flatMap Join.references ++
      (s.condition.tests.flatMap fun t => t.columns.map Column.reference) ++
      s.order.map fun o => (Column.mk root o.field).reference := by
  have htokens : lex s.text = some (s.fragment.tokens 0) := lex_textAfter s.spaced_fragment 0
  rw [htokens, Option.some.injEq] at h
  rw [← h]
  exact s.refers_fragment.references 0 _ rfl

/-- The references in the condition are the columns of its tests. -/
theorem references_condition {ts : List Token} (h : lex s.text = some ts) :
    references ((conditionOf ts).getD []) =
      s.condition.tests.flatMap fun t => t.columns.map Column.reference := by
  have hfront := isClause_of_mem_tokens s.isInner_front 0
  rw [lex_text, Option.some.injEq] at h
  rw [← h]
  rcases s.condition.fragment_cases with ⟨hnil, htests⟩ | ⟨body, hbody, hinner, hrefers⟩
  · have hnone := conditionOf_eq_none hfront (s.startsClause_back 0)
    rw [hnil, htests]
    have hempty : tokens 0 ([] : Fragment) = [] := rfl
    rw [hempty, List.append_nil, operands_nil, List.length_nil, hnone]
    rfl
  · have hsome := conditionOf_eq_some hfront (s.startsClause_back body.operands.length)
      (isClause_of_mem_tokens hinner 0)
    have htokens : tokens 0 (.text " WHERE " :: body) = .word "WHERE" :: body.tokens 0 := rfl
    rw [hbody, htokens, operands_text, hsome]
    exact hrefers.references 0 _ rfl

end Select

end RowQuery.Sql
