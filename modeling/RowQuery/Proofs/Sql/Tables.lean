import RowQuery.Proofs.Sql.Clause

/-!
# The tables and the outputs of a statement

The tables that a statement introduces, with their aliases, stand between FROM and the first clause
behind it, and the outputs stand before FROM. Both are read back from the tokens of the statement
(`readTables_eq`, `readOutputs_eq`).
-/

namespace RowQuery.Sql

open Fragment

/-! ### Tables -/

/-- A table and the name that a statement gives it. -/
structure TableName where
  table : String
  name : String
deriving DecidableEq, Repr

/-- A table that is joined where its own column equals a column of another table. -/
structure JoinedTable extends TableName where
  own : Column
  other : Column
deriving DecidableEq, Repr

/-- Reads joins to the last token. -/
def readJoins : List Token → Option (List JoinedTable)
  | [] => some []
  | .word "LEFT" :: .word "JOIN" :: .name table :: .word "AS" :: .name name :: .word "ON" ::
      .name t :: .symbol '.' :: .name f :: .symbol '=' :: .name t' :: .symbol '.' :: .name f' ::
      ts => (readJoins ts).map (⟨⟨table, name⟩, ⟨t, f⟩, ⟨t', f'⟩⟩ :: ·)
  | _ => none

/-- The table that rows are selected from, and the tables that are joined to it. -/
def readTables (ts : List Token) : Option (TableName × List JoinedTable) :=
  match (ts.takeWhile fun t => !t.isClause).dropWhile fun t => t != .word "FROM" with
  | .word "FROM" :: .name table :: .word "AS" :: .name name :: ts =>
    (readJoins ts).map (⟨table, name⟩, ·)
  | _ => none

/-- The tables of the join. -/
def Join.read (j : Join) : JoinedTable :=
  ⟨⟨j.shape.table, j.table⟩, ⟨j.table, j.relation.foreignKey⟩, ⟨j.parent, j.relation.localKey⟩⟩

theorem readJoins_tokens (js : List Join) (n : Nat) :
    readJoins (Fragment.tokens n (js.flatMap Join.fragment)) = some (js.map Join.read) := by
  induction js generalizing n with
  | nil => rfl
  | cons j js ih =>
    have htokens : Fragment.tokens n j.fragment = [.word "LEFT", .word "JOIN",
        .name j.shape.table, .word "AS", .name j.table, .word "ON", .name j.table, .symbol '.',
        .name j.relation.foreignKey, .symbol '=', .name j.parent, .symbol '.',
        .name j.relation.localKey] := rfl
    rw [List.flatMap_cons, tokens_append, htokens]
    simp only [List.cons_append, List.nil_append, readJoins, ih, Option.map_some, List.map_cons]
    rfl

/-! ### Outputs -/

/-- The name under which an output is selected: the last one in it, if it ends with a name. -/
def outputName? (ts : List Token) : Option String := ts.getLast?.bind Token.name?

/-- The names of the outputs; all columns of a table have none. -/
def readOutputs (ts : List Token) : List (Option String) :=
  (((ts.takeWhile fun t => t != .word "FROM").drop 1).splitOn (.symbol ',')).map outputName?

def Output.name? : Output → Option String
  | row => none
  | column field => some field
  | keyOf j | rowOf j => some j.path

theorem Output.outputName?_tokens (o : Output) (n : Nat) :
    outputName? (Fragment.tokens n o.fragment) = o.name? := by
  cases o <;> rfl

/-- Without operands the parts are read alike wherever they stand. -/
theorem tokens_separated (separator : String) (n : Nat) :
    (fs : List Fragment) → (∀ f ∈ fs, f.operands = []) →
      (separated separator fs).tokens n =
        (Fragment.tokens n [.text separator]).intercalate (fs.map (Fragment.tokens n))
  | [], _ => rfl
  | [f], _ => by simp
  | f :: g :: fs, h => by
    obtain ⟨hf, hfs⟩ := List.forall_mem_cons.1 h
    have hrest := tokens_separated separator n (g :: fs) hfs
    have hcons (r : Fragment) : Fragment.tokens n (.text separator :: r) =
        Fragment.tokens n [.text separator] ++ r.tokens n :=
      tokens_append (f := [.text separator]) (g := r) n
    rw [separated_cons_cons, tokens_append, hf, List.length_nil, Nat.add_zero, hcons, hrest]
    simp only [List.map_cons, List.intercalate_cons_cons, List.append_assoc]

/-! ### Statements -/

theorem Where.isClause_head? (w : Where) {ts : List Token}
    (hts : ts.head?.all Token.isClause = true) :
    (w.fragment.tokens 0 ++ ts).head?.all Token.isClause = true := by
  match w with
  | all [] => exact hts
  | all (_ :: _) => rfl
  | any [] => rfl
  | any (_ :: _) => rfl

namespace Select

variable (s : Select)

/-- The tokens of the outputs, with commas between them. -/
def outputTokens : List Token :=
  [Token.symbol ','].intercalate (s.outputs.map fun o => Fragment.tokens 0 o.fragment)

theorem tokens_outputs :
    Fragment.tokens 0 (separated ", " (s.outputs.map Output.fragment)) = s.outputTokens := by
  have hnone : ∀ f ∈ s.outputs.map Output.fragment, f.operands = [] := by
    intro f hf
    obtain ⟨o, _, rfl⟩ := List.mem_map.1 hf
    cases o <;> rfl
  rw [tokens_separated ", " 0 _ hnone, List.map_map]
  rfl

theorem ne_from_of_mem_outputTokens : ∀ t ∈ s.outputTokens, (t != .word "FROM") = true := by
  have hall : Fragment.allText (fun t => t != .word "FROM")
      (separated ", " (s.outputs.map Output.fragment)) = true := by
    refine allText_separated rfl fun f hf => ?_
    obtain ⟨o, _, rfl⟩ := List.mem_map.1 hf
    cases o <;> rfl
  rw [← tokens_outputs]
  exact all_tokens (fun _ => rfl) (fun _ => rfl) hall 0

/-- What stands before FROM, and what stands behind it. -/
theorem exists_tokens_front :
    ∃ n, s.front.tokens 0 = .word "SELECT" :: s.outputTokens ++
      .word "FROM" :: .name s.table :: .word "AS" :: .name root ::
        Fragment.tokens n (s.joins.flatMap Join.fragment) := by
  have hselect : Fragment.tokens 0 (.text "SELECT " :: separated ", "
      (s.outputs.map Output.fragment)) = .word "SELECT" :: s.outputTokens := by
    rw [← tokens_outputs]
    rfl
  rw [front, tokens_append, tokens_append, hselect, List.append_assoc]
  exact ⟨_, rfl⟩

theorem ne_from_of_mem_select :
    ∀ t ∈ Token.word "SELECT" :: s.outputTokens, (t != .word "FROM") = true :=
  List.forall_mem_cons.2 ⟨rfl, s.ne_from_of_mem_outputTokens⟩

/-- The tables of a statement are read as they were put in. -/
theorem readTables_eq {ts : List Token} (h : lex s.text = some ts) :
    readTables ts = some (⟨s.table, root⟩, s.joins.map Join.read) := by
  have hback : ∀ n, (s.back.tokens n).head?.all Token.isClause = true := by
    intro n
    have hstarts := s.startsClause_back n
    cases hts : s.back.tokens n with
    | nil => rfl
    | cons t ts =>
      rw [hts] at hstarts
      exact (startsClause_cons.1 hstarts).1
  have hrest := s.condition.isClause_head? (hback s.condition.fragment.operands.length)
  rw [lex_text, Option.some.injEq, List.append_assoc] at h
  have hfront : ts.takeWhile (fun t => !t.isClause) = s.front.tokens 0 := by
    rw [← h, List.takeWhile_append_of_pos fun t ht => by
      rw [isClause_of_mem_tokens s.isInner_front 0 t ht]; rfl]
    generalize s.condition.fragment.tokens 0 ++ _ = us at hrest
    cases us with
    | nil => simp
    | cons u us =>
      have hu : u.isClause = true := hrest
      simp [hu]
  obtain ⟨n, htokens⟩ := s.exists_tokens_front
  have hdrop : (s.front.tokens 0).dropWhile (fun t => t != .word "FROM") =
      .word "FROM" :: .name s.table :: .word "AS" :: .name root ::
        Fragment.tokens n (s.joins.flatMap Join.fragment) := by
    rw [htokens, List.dropWhile_append_of_pos s.ne_from_of_mem_select]
    rfl
  rw [readTables, hfront, hdrop]
  simp only [readJoins_tokens, Option.map_some]

/-- The outputs of a statement are read under their names. -/
theorem readOutputs_eq {ts : List Token} (h : lex s.text = some ts) (hne : s.outputs ≠ []) :
    readOutputs ts = s.outputs.map Output.name? := by
  obtain ⟨n, htokens⟩ := s.exists_tokens_front
  have htake : ts.takeWhile (fun t => t != .word "FROM") = .word "SELECT" :: s.outputTokens := by
    rw [lex_text, Option.some.injEq] at h
    rw [← h, htokens, List.append_assoc, List.append_assoc,
      List.takeWhile_append_of_pos s.ne_from_of_mem_select]
    simp
  have hcomma : ∀ us ∈ s.outputs.map (fun o => Fragment.tokens 0 o.fragment),
      Token.symbol ',' ∉ us := by
    intro us hus hmem
    obtain ⟨o, _, rfl⟩ := List.mem_map.1 hus
    have hall : o.fragment.allText (fun t => t != .symbol ',') = true := by cases o <;> rfl
    have hother := all_tokens (fun _ => rfl) (fun _ => rfl) hall 0 _ hmem
    cases hother
  have hsplit := List.splitOn_intercalate (Token.symbol ',') hcomma (by simpa using hne)
  rw [readOutputs, htake, List.drop_one, List.tail_cons, outputTokens, hsplit, List.map_map]
  exact List.map_congr_left fun o _ => o.outputName?_tokens 0

end Select

end RowQuery.Sql
