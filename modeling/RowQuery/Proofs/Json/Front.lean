import RowQuery.Json.Source

/-!
# A reader takes from the front

What is left over after a value is the end of the bytes that it was read from
(`readValue?_suffix`), and an object is read only where its closing brace stands
(`mem_of_readMembers?`).
-/

namespace RowQuery.Source

variable {bs rest : List UInt8}

/-! ### The first byte -/

theorem skipBlanks_cons (b : UInt8) (bs : List UInt8) (hb : isBlank b = false) :
    skipBlanks (b :: bs) = b :: bs :=
  List.dropWhile_cons_of_neg (by simp [hb])

section First

variable (fuel : Nat) (bs : List UInt8)

theorem readValue?_quote :
    readValue? (fuel + 1) (34 :: bs) = (stringUnits bs).map fun r => (.str r.1, r.2) := by
  rw [readValue?, skipBlanks_cons 34 _ rfl]
  rfl

theorem readValue?_bracket :
    readValue? (fuel + 1) (91 :: bs) =
      match skipBlanks bs with
      | 93 :: rest => some (.arr [], rest)
      | inner => (readItems? fuel inner).map fun r => (.arr r.1, r.2) := by
  rw [readValue?, skipBlanks_cons 91 _ rfl]
  rfl

theorem readValue?_brace :
    readValue? (fuel + 1) (123 :: bs) =
      match skipBlanks bs with
      | 125 :: rest => some (.obj [], rest)
      | inner => (readMembers? fuel inner).map fun r => (.obj r.1, r.2) := by
  rw [readValue?, skipBlanks_cons 123 _ rfl]
  rfl

theorem readValue?_bracket_close : readValue? (fuel + 1) (91 :: 93 :: bs) = some (.arr [], bs) := by
  rw [readValue?_bracket, skipBlanks_cons 93 bs rfl]
  rfl

theorem readValue?_brace_close : readValue? (fuel + 1) (123 :: 125 :: bs) = some (.obj [], bs) := by
  rw [readValue?_brace, skipBlanks_cons 125 bs rfl]
  rfl

/-- An array whose first item begins after the bracket. -/
theorem readValue?_bracket_cons {b : UInt8} (hblank : isBlank b = false) (hb : b ≠ 93) :
    readValue? (fuel + 1) (91 :: b :: bs) =
      (readItems? fuel (b :: bs)).map fun r => (.arr r.1, r.2) := by
  rw [readValue?_bracket, skipBlanks_cons b bs hblank]
  split
  · rename_i heq
    exact absurd (List.cons.inj heq).1 hb
  · rfl

/-- An object whose first name begins after the brace. -/
theorem readValue?_brace_quote :
    readValue? (fuel + 1) (123 :: 34 :: bs) =
      (readMembers? fuel (34 :: bs)).map fun r => (.obj r.1, r.2) := by
  rw [readValue?_brace, skipBlanks_cons 34 bs rfl]
  rfl

theorem readValue?_minus :
    readValue? (fuel + 1) (45 :: bs) = (numeral? true bs).map fun r => (.num r.1, r.2) := by
  rw [readValue?, skipBlanks_cons 45 _ rfl]
  rfl

end First

/-! ### Blanks, strings and numbers -/

theorem skipBlanks_suffix (bs : List UInt8) : skipBlanks bs <:+ bs := List.dropWhile_suffix _

theorem suffix_of_skipBlanks {b : UInt8} (h : skipBlanks bs = b :: rest) : rest <:+ bs :=
  (List.suffix_cons b rest).trans (h ▸ skipBlanks_suffix bs)

theorem stringUnits_suffix {us : List StringUnit} (h : stringUnits bs = some (us, rest)) :
    rest <:+ bs := by
  fun_induction stringUnits bs generalizing us rest with
  | case1 => cases h
  | case2 bs =>
    cases h
    exact List.suffix_cons _ _
  | case3 a b c d bs ih =>
    simp only [Option.bind_eq_bind, Option.bind_eq_some_iff] at h
    obtain ⟨n, _, ⟨us', rest'⟩, hread, h⟩ := h
    cases h
    exact (ih hread).trans ⟨[92, 117, a, b, c, d], rfl⟩
  | case4 b bs _ ih =>
    simp only [Option.bind_eq_bind, Option.bind_eq_some_iff] at h
    obtain ⟨n, _, ⟨us', rest'⟩, hread, h⟩ := h
    cases h
    exact (ih hread).trans ⟨[92, b], rfl⟩
  | case5 => cases h
  | case6 b bs _ _ _ _ ih =>
    simp only [Option.bind_eq_bind, Option.bind_eq_some_iff] at h
    obtain ⟨⟨us', rest'⟩, hread, h⟩ := h
    cases h
    exact (ih hread).trans (List.suffix_cons _ _)

theorem digits_suffix (bs : List UInt8) : (digits bs).2 <:+ bs := List.dropWhile_suffix _

theorem fraction?_suffix {ds : List Nat} (h : fraction? bs = some (ds, rest)) : rest <:+ bs := by
  unfold fraction? at h
  split at h
  · rename_i bs
    have hds := digits_suffix bs
    split at h
    · cases h
    · rw [Option.some.inj h] at hds
      exact hds.trans (List.suffix_cons _ _)
  · cases h
    exact List.suffix_refl _

theorem exponentDigits?_suffix {negative : Bool} {e : Option Int}
    (h : exponentDigits? negative bs = some (e, rest)) : rest <:+ bs := by
  have hds := digits_suffix bs
  unfold exponentDigits? at h
  split at h
  · cases h
  · rename_i heq
    rw [heq] at hds
    cases h
    exact hds

theorem exponent?_suffix {e : Option Int} (h : exponent? bs = some (e, rest)) : rest <:+ bs := by
  unfold exponent? at h
  split at h
  · split at h
    · split at h
      · exact (exponentDigits?_suffix h).trans ⟨[_, 45], rfl⟩
      · exact (exponentDigits?_suffix h).trans ⟨[_, 43], rfl⟩
      · exact (exponentDigits?_suffix h).trans (List.suffix_cons _ _)
    · cases h
      exact List.suffix_refl _
  · cases h
    exact List.suffix_refl _

theorem numeral?_suffix {negative : Bool} {n : Numeral}
    (h : numeral? negative bs = some (n, rest)) : rest <:+ bs := by
  have hds := digits_suffix bs
  unfold numeral? at h
  split at h
  · cases h
  · cases h
  · rename_i heq
    rw [heq] at hds
    simp only [Option.bind_eq_bind, Option.bind_eq_some_iff] at h
    obtain ⟨⟨fraction, afterFraction⟩, hfraction, ⟨exponent, afterExponent⟩, hexponent, h⟩ := h
    cases h
    exact ((exponent?_suffix hexponent).trans (fraction?_suffix hfraction)).trans hds

/-! ### Values -/

/-- What members are read from: the name and the value of the first, and then a comma and the rest
of them, or the closing brace. -/
theorem readMembers?_eq_some {fuel : Nat} {ms : List (List StringUnit × Source)}
    (h : readMembers? (fuel + 1) bs = some (ms, rest)) :
    ∃ inner j after, inner <:+ bs ∧ readValue? fuel inner = some (j, after) ∧
      ((∃ next ms', skipBlanks after = 44 :: next ∧ readMembers? fuel next = some (ms', rest)) ∨
        skipBlanks after = 125 :: rest) := by
  unfold readMembers? at h
  split at h
  · rename_i quoted hquote
    obtain ⟨⟨name, colon⟩, hname, h⟩ := Option.bind_eq_some_iff.1 h
    dsimp only at h
    split at h
    · rename_i inner hcolon
      obtain ⟨⟨j, after⟩, hvalue, h⟩ := Option.bind_eq_some_iff.1 h
      have hinner : inner <:+ bs :=
        ((suffix_of_skipBlanks hcolon).trans (stringUnits_suffix hname)).trans
          (suffix_of_skipBlanks hquote)
      refine ⟨inner, j, after, hinner, hvalue, ?_⟩
      dsimp only at h
      split at h
      · rename_i next hcomma
        obtain ⟨⟨ms', rest'⟩, hread, h⟩ := Option.bind_eq_some_iff.1 h
        cases h
        exact .inl ⟨next, ms', hcomma, hread⟩
      · rename_i hclose
        cases h
        exact .inr hclose
      · cases h
    · cases h
  · cases h

mutual

theorem readValue?_suffix : (fuel : Nat) → {bs rest : List UInt8} → {j : Source} →
    readValue? fuel bs = some (j, rest) → rest <:+ bs
  | 0, _, _, _, h => by cases h
  | fuel + 1, bs, rest, j, h => by
    refine List.IsSuffix.trans ?_ (skipBlanks_suffix bs)
    unfold readValue? at h
    split at h
    · rename_i heq
      cases h
      exact heq ▸ ⟨[110, 117, 108, 108], rfl⟩
    · rename_i heq
      cases h
      exact heq ▸ ⟨[116, 114, 117, 101], rfl⟩
    · rename_i heq
      cases h
      exact heq ▸ ⟨[102, 97, 108, 115, 101], rfl⟩
    · rename_i heq
      obtain ⟨⟨us, after⟩, hread, h⟩ := Option.map_eq_some_iff.1 h
      cases h
      exact heq ▸ (stringUnits_suffix hread).trans (List.suffix_cons _ _)
    · rename_i inner heq
      rw [heq]
      refine List.IsSuffix.trans ?_ (List.suffix_cons 91 inner)
      split at h
      · rename_i hclose
        cases h
        exact suffix_of_skipBlanks hclose
      · obtain ⟨⟨js, after⟩, hread, h⟩ := Option.map_eq_some_iff.1 h
        cases h
        exact (readItems?_suffix fuel hread).trans (skipBlanks_suffix inner)
    · rename_i inner heq
      rw [heq]
      refine List.IsSuffix.trans ?_ (List.suffix_cons 123 inner)
      split at h
      · rename_i hclose
        cases h
        exact suffix_of_skipBlanks hclose
      · obtain ⟨⟨ms, after⟩, hread, h⟩ := Option.map_eq_some_iff.1 h
        cases h
        exact (readMembers?_suffix fuel hread).trans (skipBlanks_suffix inner)
    · rename_i heq
      obtain ⟨⟨n, after⟩, hread, h⟩ := Option.map_eq_some_iff.1 h
      cases h
      exact heq ▸ (numeral?_suffix hread).trans (List.suffix_cons _ _)
    · obtain ⟨⟨n, after⟩, hread, h⟩ := Option.map_eq_some_iff.1 h
      cases h
      exact numeral?_suffix hread

theorem readItems?_suffix : (fuel : Nat) → {bs rest : List UInt8} → {js : List Source} →
    readItems? fuel bs = some (js, rest) → rest <:+ bs
  | 0, _, _, _, h => by cases h
  | fuel + 1, bs, rest, js, h => by
    rw [readItems?, Option.bind_eq_bind, Option.bind_eq_some_iff] at h
    obtain ⟨⟨j, after⟩, hvalue, h⟩ := h
    refine List.IsSuffix.trans ?_ (readValue?_suffix fuel hvalue)
    dsimp only at h
    split at h
    · rename_i hcomma
      obtain ⟨⟨js', after'⟩, hread, h⟩ := Option.bind_eq_some_iff.1 h
      cases h
      exact (readItems?_suffix fuel hread).trans (suffix_of_skipBlanks hcomma)
    · rename_i hclose
      cases h
      exact suffix_of_skipBlanks hclose
    · cases h

theorem readMembers?_suffix : (fuel : Nat) → {bs rest : List UInt8} →
    {ms : List (List StringUnit × Source)} → readMembers? fuel bs = some (ms, rest) → rest <:+ bs
  | 0, _, _, _, h => by cases h
  | fuel + 1, bs, rest, ms, h => by
    obtain ⟨inner, j, after, hinner, hvalue, htail⟩ := readMembers?_eq_some h
    have hafter := (readValue?_suffix fuel hvalue).trans hinner
    rcases htail with ⟨next, ms', hcomma, hread⟩ | hclose
    · exact ((readMembers?_suffix fuel hread).trans (suffix_of_skipBlanks hcomma)).trans hafter
    · exact (suffix_of_skipBlanks hclose).trans hafter

end

/-- Members are read only where a closing brace (125) stands. -/
theorem mem_of_readMembers? {fuel : Nat} {ms : List (List StringUnit × Source)}
    (h : readMembers? fuel bs = some (ms, rest)) : 125 ∈ bs := by
  induction fuel generalizing bs rest ms with
  | zero => cases h
  | succ fuel ih =>
    obtain ⟨inner, j, after, hinner, hvalue, htail⟩ := readMembers?_eq_some h
    have hafter := (readValue?_suffix fuel hvalue).trans hinner
    rcases htail with ⟨next, ms', hcomma, hread⟩ | hclose
    · exact ((suffix_of_skipBlanks hcomma).trans hafter).mem (ih hread)
    · exact ((hclose ▸ skipBlanks_suffix after).trans hafter).mem (.head _)

/-- Bytes that begin with an opening brace (123) are read only where a closing one stands. -/
theorem read?_eq_none_of_not_mem (hclose : (125 : UInt8) ∉ bs) : read? (123 :: bs) = none := by
  have hvalue (fuel : Nat) : readValue? (fuel + 1) (123 :: bs) = none := by
    rw [readValue?_brace]
    split
    · rename_i heq
      exact absurd ((skipBlanks_suffix bs).mem (heq ▸ .head _)) hclose
    · rw [Option.map_eq_none_iff, Option.eq_none_iff_forall_ne_some]
      intro r hr
      exact hclose ((skipBlanks_suffix bs).mem (mem_of_readMembers? hr))
  rw [read?, hvalue]

end RowQuery.Source
