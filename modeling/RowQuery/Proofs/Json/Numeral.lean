import RowQuery.Proofs.Json.Front
import RowQuery.Proofs.Text.Ascii

/-!
# Numerals are read as they were written

A numeral is written with its digits, a point before its fraction and a mark before its exponent.
Followed by a byte that is no part of a numeral, it is read as it was (`readValue?_numeral`), and
the digits of a whole number of 64 bits have its value (`number?_whole`).
-/

namespace RowQuery

open Text

/-! ### Digits -/

/-- The value of a digit. -/
def digitOf (c : Char) : Nat := c.toNat - 48

theorem toNat_of_isDigit {c : Char} (h : c.isDigit = true) : 48 ≤ c.toNat ∧ c.toNat ≤ 57 :=
  Char.isDigit_iff_toNat.1 h

/-- The decimal digits of a number. -/
def decimalDigits (n : Nat) : List Nat := (Nat.toDigits 10 n).map digitOf

theorem decimalValue_decimalDigits (n : Nat) : decimalValue (decimalDigits n) = n := by
  have hvalue : Nat.ofDigitChars 10 (Nat.toDigits 10 n) 0 = n := Nat.ofDigitChars_ten_toDigits
  rw [decimalValue, decimalDigits, List.foldl_map]
  exact hvalue

theorem decimalDigits_ne_nil (n : Nat) : decimalDigits n ≠ [] := by
  rw [decimalDigits, Ne, List.map_eq_nil_iff]
  exact Nat.toDigits_ne_nil

theorem isDigit_of_mem_toDigits (n : Nat) : ∀ c ∈ Nat.toDigits 10 n, c.isDigit = true :=
  fun _ hc => Nat.isDigit_of_mem_toDigits (by decide) (by decide) hc

theorem lt_ten_of_mem_decimalDigits (n : Nat) : ∀ d ∈ decimalDigits n, d < 10 := by
  intro d hd
  obtain ⟨c, hc, rfl⟩ := List.mem_map.1 hd
  have hrange := toNat_of_isDigit (isDigit_of_mem_toDigits n c hc)
  rw [digitOf]
  omega

theorem digitChar_digitOf {c : Char} (h : c.isDigit = true) : Nat.digitChar (digitOf c) = c := by
  have hall : ∀ d < 10, Nat.digitChar d = Char.ofNat (48 + d) := by decide
  have hrange := toNat_of_isDigit h
  rw [digitOf, hall _ (by omega), Nat.add_sub_cancel' hrange.1, Char.ofNat_toNat]

theorem map_digitChar_decimalDigits (n : Nat) :
    (decimalDigits n).map Nat.digitChar = Nat.toDigits 10 n := by
  rw [decimalDigits, List.map_map]
  refine (List.map_congr_left fun c hc => ?_).trans (List.map_id _)
  exact digitChar_digitOf (isDigit_of_mem_toDigits n c hc)

/-- Only zero is written with a zero in front. -/
theorem head?_decimalDigits {n : Nat} (h : 0 < n) : (decimalDigits n).head? ≠ some 0 := by
  induction n using Nat.strongRecOn with
  | ind n ih =>
    rw [decimalDigits]
    by_cases hn : n < 10
    · have hdigit : ∀ m < 10, 0 < m → digitOf m.digitChar ≠ 0 := by decide
      rw [Nat.toDigits_of_lt_base hn]
      simpa using hdigit n hn h
    · rw [Nat.toDigits_of_base_le (by decide) (by omega), List.map_append, List.head?_append]
      have hhigh := ih (n / 10) (by omega) (by omega)
      cases hhead : (decimalDigits (n / 10)).head? with
      | none => exact absurd (List.head?_eq_none_iff.1 hhead) (decimalDigits_ne_nil _)
      | some d =>
        rw [hhead] at hhigh
        rw [decimalDigits] at hhead
        rw [hhead]
        exact hhigh

/-! ### Written numerals -/

theorem toList_toString_ofNat (n : Nat) :
    (toString (Int.ofNat n)).toList = Nat.toDigits 10 n := Nat.toList_repr

theorem toList_toString_negSucc (n : Nat) :
    (toString (Int.negSucc n)).toList = '-' :: Nat.toDigits 10 (n + 1) :=
  (String.toList_append ..).trans (congrArg ('-' :: ·) Nat.toList_repr)

namespace Numeral

/-- The digits of a fraction after a point, if there are any. -/
def pointed : List Nat → List Char
  | [] => []
  | ds => '.' :: ds.map Nat.digitChar

/-- An exponent after its mark. -/
def marked : Option Int → List Char
  | none => []
  | some e => 'e' :: (toString e).toList

variable (n : Numeral)

def unsigned : List Char :=
  n.whole.map Nat.digitChar ++ (pointed n.fraction ++ marked n.exponent)

def text : List Char := (if n.negative then ['-'] else []) ++ n.unsigned

variable {n}

theorem text_of_negative (h : n.negative = true) : n.text = '-' :: n.unsigned := by
  rw [text, h]
  rfl

theorem text_of_not_negative (h : n.negative = false) : n.text = n.unsigned := by
  rw [text, h]
  rfl

variable (n)

/-- The digits are digits, at least one stands before the point, and a zero there stands alone. -/
structure Proper : Prop where
  whole_ne_nil : n.whole ≠ []
  whole_eq_zero : n.whole.head? = some 0 → n.whole = [0]
  whole_lt : ∀ d ∈ n.whole, d < 10
  fraction_lt : ∀ d ∈ n.fraction, d < 10

variable {n}

/-- The digits begin with a digit. -/
theorem exists_cons_unsigned (hn : n.Proper) :
    ∃ d cs, d < 10 ∧ n.unsigned = Nat.digitChar d :: cs := by
  obtain ⟨d, ds, hwhole⟩ := List.exists_cons_of_ne_nil hn.whole_ne_nil
  refine ⟨d, ds.map Nat.digitChar ++ (pointed n.fraction ++ marked n.exponent),
    hn.whole_lt d (hwhole ▸ .head _), ?_⟩
  rw [unsigned, hwhole]
  rfl

theorem ascii_of_mem_digits {ds : List Nat} (hds : ∀ d ∈ ds, d < 10) :
    ∀ c ∈ ds.map Nat.digitChar, c.toNat < 128 := by
  have hdigit : ∀ d < 10, (Nat.digitChar d).toNat < 128 := by decide
  exact List.forall_mem_map.2 fun d hd => hdigit d (hds d hd)

theorem ascii_of_mem_marked (e : Option Int) : ∀ c ∈ marked e, c.toNat < 128 := by
  have hdigits (n : Nat) : ∀ c ∈ Nat.toDigits 10 n, c.toNat < 128 :=
    map_digitChar_decimalDigits n ▸ ascii_of_mem_digits (lt_ten_of_mem_decimalDigits n)
  cases e with
  | none => exact nofun
  | some e =>
    refine List.forall_mem_cons.2 ⟨by decide, ?_⟩
    cases e with
    | ofNat n =>
      rw [toList_toString_ofNat]
      exact hdigits n
    | negSucc n =>
      rw [toList_toString_negSucc]
      exact List.forall_mem_cons.2 ⟨by decide, hdigits _⟩

theorem ascii_of_mem_text (hn : n.Proper) : ∀ c ∈ n.text, c.toNat < 128 := by
  have hpointed : ∀ c ∈ pointed n.fraction, c.toNat < 128 := by
    have hfraction := hn.fraction_lt
    cases hds : n.fraction with
    | nil => exact nofun
    | cons d ds =>
      rw [hds] at hfraction
      exact List.forall_mem_cons.2 ⟨by decide, ascii_of_mem_digits hfraction⟩
  have hunsigned : ∀ c ∈ n.unsigned, c.toNat < 128 :=
    List.forall_mem_append.2 ⟨ascii_of_mem_digits hn.whole_lt,
      List.forall_mem_append.2 ⟨hpointed, ascii_of_mem_marked _⟩⟩
  cases hsign : n.negative with
  | true =>
    rw [text_of_negative hsign]
    exact List.forall_mem_cons.2 ⟨by decide, hunsigned⟩
  | false =>
    rw [text_of_not_negative hsign]
    exact hunsigned

end Numeral

namespace Source

/-! ### Reading -/

/-- The bytes do not go on with a part of a numeral. -/
def EndsNumeral (bs : List UInt8) : Prop :=
  ∀ b ∈ bs.head?, isDigit b = false ∧ b ≠ 46 ∧ b ≠ 101 ∧ b ≠ 69

theorem endsNumeral_nil : EndsNumeral [] := nofun

theorem isDigit_digit : ∀ d < 10, isDigit (asciiByte d.digitChar) = true := by decide

theorem toNat_digit : ∀ d < 10, (asciiByte d.digitChar).toNat - 48 = d := by decide

/-- Digits are read up to the first byte that is none. -/
theorem digits_append {ds : List Nat} (hds : ∀ d ∈ ds, d < 10) {rest : List UInt8}
    (hrest : ∀ b ∈ rest.head?, isDigit b = false) :
    digits ((ds.map Nat.digitChar).map asciiByte ++ rest) = (ds, rest) := by
  have hbytes : ∀ b ∈ (ds.map Nat.digitChar).map asciiByte, isDigit b = true := by
    simp only [List.map_map, List.forall_mem_map]
    exact fun d hd => isDigit_digit d (hds d hd)
  have hvalues : ((ds.map Nat.digitChar).map asciiByte).map (fun b => b.toNat - 48) = ds := by
    rw [List.map_map, List.map_map]
    exact (List.map_congr_left fun d hd => toNat_digit d (hds d hd)).trans (List.map_id _)
  have hstop : rest.takeWhile isDigit = [] ∧ rest.dropWhile isDigit = rest := by
    cases rest with
    | nil => exact ⟨rfl, rfl⟩
    | cons b rest =>
      have hb : ¬ isDigit b = true := by simp [hrest b rfl]
      exact ⟨List.takeWhile_cons_of_neg hb, List.dropWhile_cons_of_neg hb⟩
  rw [digits, List.takeWhile_append_of_pos hbytes, List.dropWhile_append_of_pos hbytes, hstop.1,
    hstop.2, List.append_nil, hvalues]

theorem fraction?_of_ne {bs : List UInt8} (h : ∀ b ∈ bs.head?, b ≠ 46) :
    fraction? bs = some ([], bs) := by
  unfold fraction?
  split
  · exact absurd rfl (h 46 rfl)
  · rfl

theorem exponent?_of_ne {bs : List UInt8} (h : ∀ b ∈ bs.head?, b ≠ 101 ∧ b ≠ 69) :
    exponent? bs = some (none, bs) := by
  cases bs with
  | nil => rfl
  | cons b bs =>
    obtain ⟨he, hE⟩ := h b rfl
    simp [exponent?, he, hE]

theorem fraction?_append {ds : List Nat} (hne : ds ≠ []) (hds : ∀ d ∈ ds, d < 10)
    {rest : List UInt8} (hrest : ∀ b ∈ rest.head?, isDigit b = false) :
    fraction? (46 :: ((ds.map Nat.digitChar).map asciiByte ++ rest)) = some (ds, rest) := by
  have hdigits := digits_append hds hrest
  unfold fraction?
  simp only [hdigits]
  cases ds with
  | nil => exact absurd rfl hne
  | cons d ds => rfl

/-- The digits of an exponent are read with the sign that stands before them. -/
theorem exponentDigits?_append (negative : Bool) (n : Nat) {rest : List UInt8}
    (hrest : ∀ b ∈ rest.head?, isDigit b = false) :
    exponentDigits? negative ((Nat.toDigits 10 n).map asciiByte ++ rest) =
      some (some (if negative then -(n : Int) else n), rest) := by
  have hdigits := digits_append (lt_ten_of_mem_decimalDigits n) hrest
  rw [map_digitChar_decimalDigits] at hdigits
  have hvalue := decimalValue_decimalDigits n
  unfold exponentDigits?
  rw [hdigits]
  cases hds : decimalDigits n with
  | nil => exact absurd hds (decimalDigits_ne_nil n)
  | cons d ds =>
    rw [hds] at hvalue
    simp only [hvalue]

/-- A byte that is no sign begins the digits of an exponent. -/
theorem exponent?_of_isDigit {b : UInt8} (hb : isDigit b = true) (bs : List UInt8) :
    exponent? (101 :: b :: bs) = exponentDigits? false (b :: bs) := by
  have hminus : b ≠ 45 := by rintro rfl; cases hb
  have hplus : b ≠ 43 := by rintro rfl; cases hb
  have hmark : ((101 : UInt8) == 101 || (101 : UInt8) == 69) = true := rfl
  rw [exponent?, if_pos hmark]
  · exact fun _ heq => hminus (List.cons.inj heq).1
  · exact fun _ heq => hplus (List.cons.inj heq).1

theorem exponent?_append (e : Int) {rest : List UInt8}
    (hrest : ∀ b ∈ rest.head?, isDigit b = false) :
    exponent? (101 :: ((toString e).toList.map asciiByte ++ rest)) = some (some e, rest) := by
  cases e with
  | ofNat n =>
    have hread := exponentDigits?_append false n hrest
    have hdigits := map_digitChar_decimalDigits n
    have hlt := lt_ten_of_mem_decimalDigits n
    rw [toList_toString_ofNat]
    cases hds : decimalDigits n with
    | nil => exact absurd hds (decimalDigits_ne_nil n)
    | cons d ds =>
      rw [hds, List.map_cons] at hdigits
      rw [hds] at hlt
      rw [← hdigits, List.map_cons, List.cons_append] at hread ⊢
      rw [exponent?_of_isDigit (isDigit_digit d (hlt d (.head _))), hread]
      rfl
  | negSucc n =>
    rw [toList_toString_negSucc]
    exact exponentDigits?_append true (n + 1) hrest

section Parts

variable {rest : List UInt8} (hrest : EndsNumeral rest)

include hrest

/-- A mark is no digit and no point, and neither is what follows a numeral. -/
theorem head?_marked (e : Option Int) :
    ∀ b ∈ ((Numeral.marked e).map asciiByte ++ rest).head?, isDigit b = false ∧ b ≠ 46 := by
  intro b hb
  cases e with
  | none => exact ⟨(hrest b hb).1, (hrest b hb).2.1⟩
  | some e =>
    cases hb
    decide

theorem exponent?_marked (e : Option Int) :
    exponent? ((Numeral.marked e).map asciiByte ++ rest) = some (e, rest) := by
  cases e with
  | none => exact exponent?_of_ne fun b hb => (hrest b hb).2.2
  | some e => exact exponent?_append e fun b hb => (hrest b hb).1

theorem fraction?_pointed {ds : List Nat} (hds : ∀ d ∈ ds, d < 10) (e : Option Int) :
    fraction? ((Numeral.pointed ds ++ Numeral.marked e).map asciiByte ++ rest) =
      some (ds, (Numeral.marked e).map asciiByte ++ rest) := by
  have hmarked := head?_marked hrest e
  cases ds with
  | nil => exact fraction?_of_ne fun b hb => (hmarked b hb).2
  | cons d ds =>
    rw [List.map_append, List.append_assoc]
    exact fraction?_append (List.cons_ne_nil d ds) hds fun b hb => (hmarked b hb).1

/-- A numeral is read up to its end. -/
theorem numeral?_unsigned {n : Numeral} (hn : n.Proper) :
    numeral? n.negative (n.unsigned.map asciiByte ++ rest) = some (n, rest) := by
  obtain ⟨negative, whole, fraction, exponent⟩ := n
  obtain ⟨hne, hzero, hwhole, hfraction⟩ := hn
  have hhead : ∀ b ∈ ((Numeral.pointed fraction ++ Numeral.marked exponent).map asciiByte ++
      rest).head?, isDigit b = false := by
    intro b hb
    cases fraction with
    | nil => exact (head?_marked hrest exponent b hb).1
    | cons d ds =>
      cases hb
      rfl
  have hdigits := digits_append hwhole hhead
  rw [Numeral.unsigned, List.map_append, List.append_assoc]
  unfold numeral?
  split
  · rename_i heq
    cases hdigits.symm.trans heq
    exact absurd rfl hne
  · rename_i heq
    cases hdigits.symm.trans heq
    cases hzero rfl
  · rename_i heq
    cases hdigits.symm.trans heq
    simp only [fraction?_pointed hrest hfraction, exponent?_marked hrest, Option.bind_eq_bind,
      Option.bind_some]
    rfl

end Parts

/-- A value that begins with a digit is a number. -/
theorem readValue?_of_isDigit (fuel : Nat) {b : UInt8} (hb : isDigit b = true)
    (bs : List UInt8) :
    readValue? (fuel + 1) (b :: bs) = (numeral? false (b :: bs)).map fun r => (.num r.1, r.2) := by
  have hrange : 48 ≤ b.toNat ∧ b.toNat ≤ 57 := by
    simpa [isDigit, UInt8.le_iff_toNat_le] using hb
  have hne (n : UInt8) (hn : n.toNat < 48 ∨ 57 < n.toNat) : b ≠ n := by
    rintro rfl
    omega
  have hblank : isBlank b = false := by
    simp [isBlank, hne 32 (by decide), hne 9 (by decide), hne 10 (by decide), hne 13 (by decide)]
  rw [readValue?, skipBlanks_cons b bs hblank]
  split
  all_goals first
    | rfl
    | (rename_i h; cases h; exact absurd rfl (hne _ (by decide)))

/-- A written numeral is read as it was. -/
theorem readValue?_numeral {n : Numeral} (hn : n.Proper) (fuel : Nat) {rest : List UInt8}
    (hrest : EndsNumeral rest) :
    readValue? (fuel + 1) (n.text.map asciiByte ++ rest) = some (.num n, rest) := by
  have hread := numeral?_unsigned hrest hn
  cases hsign : n.negative with
  | true =>
    rw [hsign] at hread
    rw [Numeral.text_of_negative hsign, List.map_cons, List.cons_append]
    exact (readValue?_minus fuel _).trans (by rw [hread]; rfl)
  | false =>
    obtain ⟨d, cs, hd, hfirst⟩ := Numeral.exists_cons_unsigned hn
    rw [hsign, hfirst, List.map_cons, List.cons_append] at hread
    rw [Numeral.text_of_not_negative hsign, hfirst, List.map_cons, List.cons_append,
      readValue?_of_isDigit fuel (isDigit_digit d hd), hread]
    rfl

end Source

/-! ### Whole numbers -/

namespace Numeral

/-- The numeral of a whole number. -/
def ofInt (n : Int) : Numeral := ⟨decide (n < 0), decimalDigits n.natAbs, [], none⟩

theorem proper_ofInt (n : Int) : (ofInt n).Proper := by
  refine ⟨decimalDigits_ne_nil _, fun hzero => ?_, lt_ten_of_mem_decimalDigits _, nofun⟩
  rcases Nat.eq_zero_or_pos n.natAbs with hn | hn
  · rw [ofInt, hn]
    rfl
  · exact absurd hzero (head?_decimalDigits hn)

theorem unsigned_ofInt (n : Int) : (ofInt n).unsigned = Nat.toDigits 10 n.natAbs := by
  have hunsigned : (ofInt n).unsigned = (decimalDigits n.natAbs).map Nat.digitChar ++ [] := rfl
  rw [hunsigned, List.append_nil, map_digitChar_decimalDigits]

theorem text_ofInt (n : Int) : (ofInt n).text = (toString n).toList := by
  have hunsigned := unsigned_ofInt n
  cases n with
  | ofNat n =>
    rw [text_of_not_negative rfl, hunsigned, toList_toString_ofNat]
    rfl
  | negSucc n =>
    have hnegative : (ofInt (Int.negSucc n)).negative = true :=
      decide_eq_true (Int.negSucc_lt_zero n)
    rw [text_of_negative hnegative, hunsigned, toList_toString_negSucc]
    rfl

/-- The digits of a whole number have its value, if 64 bits hold it. -/
theorem number?_ofInt {n : Int} (h : -0x8000000000000000 ≤ n ∧ n < 0x10000000000000000) :
    (ofInt n).number? = some (.int n h) := by
  have hvalue : (if (ofInt n).negative then -(decimalValue (ofInt n).whole : Int)
      else decimalValue (ofInt n).whole) = n := by
    rw [ofInt, decimalValue_decimalDigits]
    by_cases hn : n < 0
    · simp only [hn, decide_true, if_true]
      omega
    · simp only [hn, decide_false, Bool.false_eq_true, if_false]
      omega
  have hwhole : ((ofInt n).negative && (decimalValue (ofInt n).whole : Int) == 0) = false := by
    rw [ofInt, decimalValue_decimalDigits]
    by_cases hn : n < 0
    · simp [hn]
      omega
    · simp [hn]
  simp only [number?, hvalue, hwhole]
  exact dif_pos ⟨rfl, h⟩

end Numeral

namespace Source

/-- A whole number is below a bound as it is, if 64 bits hold the bound. -/
theorem below?_ofInt {n bound : Nat} (hn : n < bound) (hbound : bound ≤ 0x10000000000000000) :
    below? bound (.num (.ofInt n)) = some n := by
  rw [below?, number?, Numeral.number?_ofInt (by omega)]
  exact if_pos (by omega)

theorem uint64?_ofInt (n : UInt64) : uint64? (.num (.ofInt n.toNat)) = some n := by
  rw [uint64?, below?_ofInt n.toNat_lt (Nat.le_refl _), Option.map_some, UInt64.ofNat_toNat]

end Source

end RowQuery
