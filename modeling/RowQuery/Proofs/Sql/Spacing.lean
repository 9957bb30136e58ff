import RowQuery.Proofs.Sql.Token

/-!
# Fragments that are read as they were written

A fragment is spaced if none of its pieces runs into the next: a piece that ends a word, a name or a
placeholder is followed by fixed text that begins none. The text of a spaced fragment is read as the
tokens of its pieces (`lex_textAfter`), with the names that were put in and with its placeholders
numbered from the left.
-/

namespace RowQuery.Sql

/-! ### Fixed text -/

def Mode.isFixed : Mode → Bool
  | between | word _ => true
  | parameter _ | name _ | quote _ => false

/-- Text without quotes and dollars, whose tokens are words and symbols. -/
def isFixedText (cs : List Char) : Bool := cs.all fun c => c != '"' && c != '$'

theorem Mode.isFixed_pending {m : Mode} (hm : m.isFixed = true) :
    ∀ t ∈ m.pending, t.isFixed = true := by
  cases m with
  | between => simp [pending]
  | word cs => simp [pending, Token.isFixed]
  | _ => cases hm

theorem Mode.isFixed_step {m : Mode} (hm : m.isFixed = true) {c : Char} (hquote : c ≠ '"')
    (hdollar : c ≠ '$') :
    (∀ t ∈ (m.step c).1, t.isFixed = true) ∧ (m.step c).2.isFixed = true := by
  have hstart : (∀ t ∈ (start c).1, t.isFixed = true) ∧ (start c).2.isFixed = true := by
    unfold start
    rw [if_neg hquote, if_neg hdollar]
    by_cases hword : isWordChar c = true
    · simp [hword, isFixed]
    · by_cases hspace : c.isWhitespace = true
      · simp [hword, hspace, isFixed]
      · simp [hword, hspace, isFixed, Token.isFixed]
  cases hextend : m.extend? c with
  | none =>
    rw [step, hextend]
    refine ⟨fun t ht => ?_, hstart.2⟩
    rcases List.mem_append.1 ht with ht | ht
    · exact isFixed_pending hm t ht
    · exact hstart.1 t ht
  | some m' =>
    rw [step, hextend]
    refine ⟨List.forall_mem_nil _, ?_⟩
    cases m with
    | word cs =>
      simp only [extend?] at hextend
      split at hextend <;> cases hextend
      rfl
    | between => cases hextend
    | _ => cases hm

theorem isFixed_scan {cs : List Char} (hcs : isFixedText cs = true) {m : Mode}
    (hm : m.isFixed = true) :
    (∀ t ∈ (scan m cs).1, t.isFixed = true) ∧ (scan m cs).2.isFixed = true := by
  induction cs generalizing m with
  | nil => exact ⟨List.forall_mem_nil _, hm⟩
  | cons c cs ih =>
    rw [isFixedText, List.all_cons, Bool.and_eq_true] at hcs
    obtain ⟨hc, hcs⟩ := hcs
    obtain ⟨hquote, hdollar⟩ : c ≠ '"' ∧ c ≠ '$' := by simpa using hc
    obtain ⟨htokens, hmode⟩ := Mode.isFixed_step hm hquote hdollar
    obtain ⟨hrest, hlast⟩ := ih hcs hmode
    refine ⟨fun t ht => ?_, hlast⟩
    rcases List.mem_append.1 ht with ht | ht
    · exact htokens t ht
    · exact hrest t ht

/-- After a break nothing is being read. -/
theorem scan_concat_isBreak {m : Mode} {cs : List Char} {c : Char} (hc : isBreak c = true)
    (hm : (scan m cs).2.isFixed = true) : (scan m (cs ++ [c])).2 = .between := by
  have hname : ∀ xs, (scan m cs).2 ≠ .name xs := by
    intro xs h
    rw [h] at hm
    cases hm
  obtain ⟨⟨hword, hdollar⟩, hquote⟩ : (isWordChar c = false ∧ c ≠ '$') ∧ c ≠ '"' := by
    simpa [isBreak] using hc
  rw [scan_append]
  simp only [scan, Mode.step, extend?_eq_none_of_isBreak hc hname, Mode.start, if_neg hquote,
    if_neg hdollar, hword]
  by_cases hspace : c.isWhitespace = true
  · simp [hspace]
  · simp [hspace]

/-! ### Fragments -/

namespace Piece

def name? : Piece → Option String
  | name s => some s
  | _ => none

/-- The text of a piece after `n` operands. -/
def textAfter (n : Nat) : Piece → String
  | text s => s
  | name s => quoteName s
  | operand _ => "$" ++ toString (n + 1)

def tokens (n : Nat) : Piece → List Token
  | text s => (scan .between s.toList).1 ++ (scan .between s.toList).2.pending
  | name s => [.name s]
  | operand _ => [.parameter (n + 1)]

def isPlain : Piece → Bool
  | text s => isFixedText s.toList
  | name _ | operand _ => true

/-- Whether anything may stand behind the piece. -/
def opens : Piece → Bool
  | text s => s.toList.getLast?.any isBreak
  | name _ | operand _ => false

/-- Whether the piece may stand behind anything. -/
def closes : Piece → Bool
  | text s => s.toList.head?.any isBreak
  | name _ | operand _ => false

variable {p : Piece}

/-- What is left to be read after the text of a piece. -/
theorem scan_textAfter (hp : p.isPlain = true) (n : Nat) :
    let r := scan .between (p.textAfter n).toList
    r.1 ++ r.2.pending = p.tokens n ∧ (∀ cs, r.2 ≠ .name cs) ∧
      (p.opens = true → r.2 = .between) := by
  cases p with
  | text s =>
    refine ⟨rfl, fun cs h => ?_, fun hopens => ?_⟩
    · have hfixed := (isFixed_scan hp (show Mode.between.isFixed = true from rfl)).2
      rw [textAfter] at h
      rw [h] at hfixed
      cases hfixed
    · rw [opens] at hopens
      cases hlast : s.toList.getLast? with
      | none => rw [hlast] at hopens; cases hopens
      | some c =>
        rw [hlast] at hopens
        obtain ⟨cs, hcs⟩ := List.getLast?_eq_some_iff.1 hlast
        have hfixed : isFixedText cs = true := by
          rw [isPlain, hcs, isFixedText, List.all_append, Bool.and_eq_true] at hp
          exact hp.1
        rw [textAfter, hcs]
        exact scan_concat_isBreak hopens (isFixed_scan hfixed rfl).2
  | name s =>
    simp only [textAfter, scan_quoteName]
    exact ⟨by simp [Mode.pending, tokens], by simp, by simp [opens]⟩
  | operand v =>
    simp only [textAfter, scan_placeholder]
    exact ⟨pending_toDigits (n + 1), by simp, by simp [opens]⟩

end Piece

namespace Fragment

/-- The tokens of a fragment after `n` operands. -/
def tokens (n : Nat) : Fragment → List Token
  | [] => []
  | p :: f => p.tokens n ++ tokens (n + (operands [p]).length) f

/-- Whether the fragment may stand behind anything. -/
def closing (f : Fragment) : Bool := f.head?.all Piece.closes

/-- Whether each piece may stand behind the one before it. -/
def spaced : Fragment → Bool
  | [] => true
  | p :: f => p.isPlain && (p.opens || closing f) && spaced f

variable {f g : Fragment}

theorem tokens_append (n : Nat) :
    tokens n (f ++ g) = tokens n f ++ tokens (n + f.operands.length) g := by
  induction f generalizing n with
  | nil => rfl
  | cons p f ih =>
    have hlength : (operands (p :: f)).length = (operands [p]).length + (operands f).length := by
      rw [← List.length_append, ← operands_append]
      rfl
    rw [List.cons_append, tokens, tokens, ih, List.append_assoc, hlength, Nat.add_assoc]

theorem textAfter_cons (n : Nat) (p : Piece) (f : Fragment) :
    textAfter n (p :: f) = p.textAfter n ++ textAfter (n + (operands [p]).length) f := by
  cases p <;> rfl

theorem spaced_cons {p : Piece} :
    spaced (p :: f) = true ↔
      p.isPlain = true ∧ (p.opens = true ∨ f.closing = true) ∧ f.spaced = true := by
  rw [spaced, Bool.and_eq_true, Bool.and_eq_true, Bool.or_eq_true, and_assoc]

theorem isBreak_head?_textAfter (hf : f.closing = true) (n : Nat) :
    (f.textAfter n).toList.head?.all isBreak = true := by
  cases f with
  | nil => rfl
  | cons p f =>
    cases p with
    | name s => cases hf
    | operand v => cases hf
    | text s =>
      have hs : s.toList.head?.any isBreak = true := hf
      rw [textAfter, String.toList_append]
      cases hlist : s.toList with
      | nil => rw [hlist] at hs; cases hs
      | cons c cs => rw [hlist] at hs; exact hs

/-- The text of a spaced fragment is read as the tokens of its pieces. -/
theorem lex_textAfter (hf : f.spaced = true) (n : Nat) :
    lex (f.textAfter n) = some (f.tokens n) := by
  induction f generalizing n with
  | nil => rfl
  | cons p f ih =>
    obtain ⟨hp, hnext, hf⟩ := spaced_cons.1 hf
    obtain ⟨htokens, hname, hopens⟩ := Piece.scan_textAfter hp n
    have hrest : ∀ m, lexFrom .between (textAfter m f).toList = some (tokens m f) := ih hf
    rw [lex, textAfter_cons, String.toList_append, lexFrom_append, tokens, ← htokens]
    rcases hnext with hp | hclosing
    · simp [hopens hp, hrest, Mode.pending]
    · rw [lexFrom_of_isBreak hname (isBreak_head?_textAfter hclosing _), hrest]
      simp [List.append_assoc]

/-! ### Names and placeholders of a fragment -/

/-- The names in a fragment, in their order. -/
def names (f : Fragment) : List String := f.filterMap Piece.name?

@[simp] theorem names_nil : names [] = [] := rfl

@[simp] theorem names_append : names (f ++ g) = names f ++ names g := by
  simp [names]

@[simp] theorem names_text (s : String) : names (.text s :: f) = names f := rfl

@[simp] theorem names_name (s : String) : names (.name s :: f) = s :: names f := rfl

@[simp] theorem names_operand (v : Value) : names (.operand v :: f) = names f := rfl

theorem isFixed_tokens_text {s : String} (hs : isFixedText s.toList = true) (n : Nat) :
    ∀ t ∈ (Piece.text s).tokens n, t.isFixed = true := by
  obtain ⟨htokens, hmode⟩ := isFixed_scan hs (show Mode.between.isFixed = true from rfl)
  intro t ht
  rcases List.mem_append.1 ht with ht | ht
  · exact htokens t ht
  · exact Mode.isFixed_pending hmode t ht

theorem filterMap_name?_tokens (hf : f.spaced = true) (n : Nat) :
    (f.tokens n).filterMap Token.name? = f.names := by
  induction f generalizing n with
  | nil => rfl
  | cons p f ih =>
    obtain ⟨hp, _, hf⟩ := spaced_cons.1 hf
    rw [tokens, List.filterMap_append, ih hf]
    cases p with
    | text s =>
      rw [names_text, List.filterMap_eq_nil_iff.2, List.nil_append]
      intro t ht
      have hfixed := isFixed_tokens_text hp n t ht
      cases t with
      | name s => cases hfixed
      | _ => rfl
    | name s => rfl
    | operand v => rfl

theorem filterMap_parameter?_tokens (hf : f.spaced = true) (n : Nat) :
    (f.tokens n).filterMap Token.parameter? = List.range' (n + 1) f.operands.length := by
  induction f generalizing n with
  | nil => rfl
  | cons p f ih =>
    obtain ⟨hp, _, hf⟩ := spaced_cons.1 hf
    rw [tokens, List.filterMap_append, ih hf]
    cases p with
    | text s =>
      rw [operands_text, List.filterMap_eq_nil_iff.2, List.nil_append]
      · rfl
      intro t ht
      have hfixed := isFixed_tokens_text hp n t ht
      cases t with
      | parameter n => cases hfixed
      | _ => rfl
    | name s => rfl
    | operand v => rfl

/-! ### Spacing of composed fragments -/

theorem closing_append (hf : f.closing = true) (hg : g.closing = true) :
    closing (f ++ g) = true := by
  cases f with
  | nil => exact hg
  | cons p f => exact hf

theorem spaced_append (hf : f.spaced = true) (hg : g.spaced = true) (h : g.closing = true) :
    spaced (f ++ g) = true := by
  induction f with
  | nil => exact hg
  | cons p f ih =>
    obtain ⟨hp, hnext, hf⟩ := spaced_cons.1 hf
    refine spaced_cons.2 ⟨hp, hnext.imp_right fun hclosing => ?_, ih hf⟩
    exact closing_append hclosing h

theorem spaced_enclosed {left right : String} (hleft : (Piece.text left).isPlain = true)
    (hopens : (Piece.text left).opens = true) (hf : f.spaced = true)
    (hright : (Piece.text right).isPlain = true) (hcloses : (Piece.text right).closes = true) :
    spaced (.text left :: f ++ [.text right]) = true := by
  have hlast : spaced [.text right] = true := spaced_cons.2 ⟨hright, .inr rfl, rfl⟩
  exact spaced_append (spaced_cons.2 ⟨hleft, .inl hopens, hf⟩) hlast hcloses

/-- A separator has to keep both of its sides apart. -/
theorem spaced_separated {separator : String} (hplain : (Piece.text separator).isPlain = true)
    (hopens : (Piece.text separator).opens = true)
    (hcloses : (Piece.text separator).closes = true) :
    {fs : List Fragment} → (∀ f ∈ fs, f.spaced = true) → spaced (separated separator fs) = true
  | [], _ => rfl
  | [f], hfs => by simpa using hfs
  | f :: g :: fs, hfs => by
    obtain ⟨hf, hfs⟩ := List.forall_mem_cons.1 hfs
    have hrest := spaced_separated hplain hopens hcloses hfs
    rw [separated_cons_cons]
    exact spaced_append hf (spaced_cons.2 ⟨hplain, .inl hopens, hrest⟩) hcloses

theorem names_separated (separator : String) :
    (fs : List Fragment) → names (separated separator fs) = fs.flatMap names
  | [] => rfl
  | [f] => by simp
  | f :: g :: fs => by
    rw [separated_cons_cons, names_append, names_text, names_separated]
    rfl

end Fragment

end RowQuery.Sql
