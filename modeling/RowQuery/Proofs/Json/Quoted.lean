import RowQuery.Json.Printer
import RowQuery.Proofs.Json.Front
import RowQuery.Proofs.Text.Ascii

/-!
# Strings are read as they were quoted

A quoted string is read unit by unit up to its closing quote (`stringUnits_quoted`), and its units
write the string again (`text?_quoted`).
-/

namespace RowQuery

open Text

/-! ### Units of a character -/

namespace StringUnit

/-- A control character without a letter of its own, which is quoted by its code. -/
def isCoded (c : Char) : Bool :=
  c.toNat < 32 && c != '\x08' && c != '\x0c' && c != '\n' && c != '\r' && c != '\t'

/-- What is read for a character of a quoted string. -/
def ofChar (c : Char) : List StringUnit :=
  if isCoded c then [.code c.toNat] else (String.utf8EncodeChar c).map .raw

/-- What is read for a quoted string. -/
def quoted (s : String) : List StringUnit := s.toList.flatMap ofChar

theorem bytes?_raw_append (bs : List UInt8) (us : List StringUnit) :
    bytes? (bs.map .raw ++ us) = (bytes? us).map (bs ++ ·) := by
  induction bs with
  | nil => simp
  | cons b bs ih =>
    rw [List.map_cons, List.cons_append, bytes?, ih, Option.map_map]
    rfl

/-- The code of a control character is that character, whatever follows. -/
theorem bytes?_code_cons {n : Nat} (hn : n < 32) (us : List StringUnit) :
    bytes? (.code n :: us) = (bytes? us).map (String.utf8EncodeChar (Char.ofNat n) ++ ·) := by
  have hhigh : isHighSurrogate n = false := by simp [isHighSurrogate]; omega
  have hlow : isLowSurrogate n = false := by simp [isLowSurrogate]; omega
  cases us with
  | nil => simp [bytes?, hhigh, hlow]
  | cons u us =>
    cases u with
    | raw b => simp [bytes?, hhigh, hlow]
    | code m => simp [bytes?, hhigh, hlow]

theorem bytes?_ofChar_append (c : Char) (us : List StringUnit) :
    bytes? (ofChar c ++ us) = (bytes? us).map (String.utf8EncodeChar c ++ ·) := by
  by_cases hc : isCoded c = true
  · have hlt : c.toNat < 32 := by
      simp only [isCoded, Bool.and_eq_true, decide_eq_true_eq] at hc
      omega
    rw [ofChar, if_pos hc, List.singleton_append, bytes?_code_cons hlt, Char.ofNat_toNat]
  · rw [ofChar, if_neg hc, bytes?_raw_append]

/-- The units of a quoted string write the string. -/
theorem text?_quoted (s : String) : text? (quoted s) = some s := by
  have hbytes : bytes? (quoted s) = bytes? (ofText s) := by
    rw [ofText, bytes?_map_raw, ← toList_eq_toList_data, toList_toUTF8, quoted]
    induction s.toList with
    | nil => rfl
    | cons c cs ih =>
      rw [List.flatMap_cons, bytes?_ofChar_append, ih, List.flatMap_cons]
      rfl
  rw [text?, hbytes]
  exact text?_ofText s

end StringUnit

/-! ### Reading -/

namespace Source

/-- The byte stands for itself in a string. -/
def isPlain (b : UInt8) : Bool := 32 ≤ b && b != 34 && b != 92

theorem stringUnits_plain {bs : List UInt8} (h : ∀ b ∈ bs, isPlain b = true)
    (rest : List UInt8) :
    stringUnits (bs ++ rest) =
      (stringUnits rest).map fun r => (bs.map StringUnit.raw ++ r.1, r.2) := by
  induction bs with
  | nil => simp
  | cons b bs ih =>
    obtain ⟨hb, hbs⟩ := List.forall_mem_cons.1 h
    obtain ⟨⟨hge, hquote⟩, hslash⟩ : (32 ≤ b ∧ b ≠ 34) ∧ b ≠ 92 := by simpa [isPlain] using hb
    have hlt : ¬ b < 32 := UInt8.not_lt.2 hge
    rw [List.cons_append, stringUnits]
    · rw [if_neg (by simp [hlt, hslash]), ih hbs]
      cases stringUnits rest <;> rfl
    · simp [hquote]
    · simp [hslash]
    · simp [hslash]

theorem isPlain_of_le {b : UInt8} (h : 128 ≤ b.toNat) : isPlain b = true := by
  have hne (n : UInt8) (hn : n.toNat < 128) : b ≠ n := by
    rintro rfl
    omega
  have hge : 32 ≤ b := UInt8.le_iff_toNat_le.2 (Nat.le_trans (by decide) h)
  simp [isPlain, hge, hne 34 (by decide), hne 92 (by decide)]

/-- No byte of a character past the controls has a meaning of its own in a string. -/
theorem isPlain_of_mem_utf8EncodeChar {c : Char} (hlt : ¬ c.toNat < 32) (hquote : c ≠ '"')
    (hslash : c ≠ '\\') : ∀ b ∈ String.utf8EncodeChar c, isPlain b = true := by
  by_cases hascii : c.toNat < 128
  · have hne (d : Char) (hd : c ≠ d) : c.toNat ≠ d.toNat := fun h => hd (Char.toNat_inj.1 h)
    have hq : c.toNat ≠ 34 := hne '"' hquote
    have hs : c.toNat ≠ 92 := hne '\\' hslash
    have hall : ∀ n < 128, ¬ n < 32 → n ≠ 34 → n ≠ 92 → isPlain (UInt8.ofNat n) = true := by decide
    rw [utf8EncodeChar_of_lt hascii]
    exact List.forall_mem_singleton.2 (hall _ hascii hlt hq hs)
  · have hv : ¬ c.val.toNat ≤ 127 := Nat.not_le.2 (Nat.le_of_not_lt hascii)
    -- Each byte marks its place in the sequence with its highest bit.
    have hmarked (n m k : Nat) (hk : 128 ≤ k) (hsum : m + k ≤ 256) (hm : 0 < m) :
        isPlain (UInt8.ofNat (n % m + k)) = true := by
      have hmod := Nat.mod_lt n hm
      apply isPlain_of_le
      rw [UInt8.toNat_ofNat', Nat.mod_eq_of_lt (by omega)]
      omega
    have htail (n : Nat) : isPlain (UInt8.ofNat (n % 64 + 128)) = true :=
      hmarked n 64 128 (by decide) (by decide) (by decide)
    have hnil : ∀ b ∈ ([] : List UInt8), isPlain b = true := List.forall_mem_nil _
    simp only [String.utf8EncodeChar, if_neg hv]
    split
    · have hlead := hmarked (c.val.toNat / 64) 32 192 (by decide) (by decide) (by decide)
      simp only [List.forall_mem_cons]
      exact ⟨hlead, htail _, hnil⟩
    · split
      · have hlead := hmarked (c.val.toNat / 4096) 16 224 (by decide) (by decide) (by decide)
        simp only [List.forall_mem_cons]
        exact ⟨hlead, htail _, htail _, hnil⟩
      · have hlead := hmarked (c.val.toNat / 262144) 8 240 (by decide) (by decide) (by decide)
        simp only [List.forall_mem_cons]
        exact ⟨hlead, htail _, htail _, htail _, hnil⟩

/-- The digits of a code are its hexadecimal digits. -/
theorem hex4?_hexDigit {n : Nat} (hn : n < 32) :
    hex4? 48 48 (asciiByte (Json.hexDigit (n / 16))) (asciiByte (Json.hexDigit (n % 16))) =
      some n := by
  have hall : ∀ n < 32, hex4? 48 48 (asciiByte (Json.hexDigit (n / 16)))
      (asciiByte (Json.hexDigit (n % 16))) = some n := by decide
  exact hall n hn

theorem stringUnits_code {n : Nat} (hn : n < 32) (rest : List UInt8) :
    stringUnits (92 :: 117 :: 48 :: 48 :: asciiByte (Json.hexDigit (n / 16)) ::
        asciiByte (Json.hexDigit (n % 16)) :: rest) =
      (stringUnits rest).map fun r => (.code n :: r.1, r.2) := by
  rw [stringUnits, hex4?_hexDigit hn]
  cases stringUnits rest <;> rfl

theorem stringUnits_letter {b e : UInt8} (hb : b ≠ 117) (he : escaped? b = some e)
    (rest : List UInt8) :
    stringUnits (92 :: b :: rest) = (stringUnits rest).map fun r => (.raw e :: r.1, r.2) := by
  rw [stringUnits]
  · rw [he]
    cases stringUnits rest <;> rfl
  · simp [hb]

theorem stringUnits_escapeChar (c : Char) (rest : List UInt8) :
    stringUnits ((Json.escapeChar c).flatMap String.utf8EncodeChar ++ rest) =
      (stringUnits rest).map fun r => (StringUnit.ofChar c ++ r.1, r.2) := by
  unfold Json.escapeChar
  split
  case h_1 | h_2 | h_3 | h_4 | h_5 | h_6 | h_7 => exact stringUnits_letter (by decide) rfl rest
  case h_8 hquote hslash hback hfeed hline hreturn htab =>
    have hcoded : StringUnit.isCoded c = decide (c.toNat < 32) := by
      simp only [StringUnit.isCoded, bne_iff_ne.2 hback, bne_iff_ne.2 hfeed, bne_iff_ne.2 hline,
        bne_iff_ne.2 hreturn, bne_iff_ne.2 htab, Bool.and_true]
    rw [StringUnit.ofChar, hcoded]
    simp only [decide_eq_true_eq]
    split
    · rename_i hlt
      have hdigit : ∀ n < 16, (Json.hexDigit n).toNat < 128 := by decide
      have hhigh := utf8EncodeChar_of_lt (hdigit (c.toNat / 16) (by omega))
      have hlow := utf8EncodeChar_of_lt (hdigit (c.toNat % 16) (by omega))
      simp only [List.flatMap_cons, hhigh, hlow]
      exact stringUnits_code hlt rest
    · rename_i hlt
      rw [List.flatMap_singleton]
      exact stringUnits_plain (isPlain_of_mem_utf8EncodeChar hlt hquote hslash) rest

/-- A quoted string is read up to its closing quote. -/
theorem stringUnits_quoted (s : String) (rest : List UInt8) :
    stringUnits ((s.toList.flatMap Json.escapeChar).flatMap String.utf8EncodeChar ++ 34 :: rest) =
      some (StringUnit.quoted s, rest) := by
  rw [StringUnit.quoted]
  induction s.toList with
  | nil => rfl
  | cons c cs ih =>
    rw [List.flatMap_cons, List.flatMap_append, List.append_assoc, stringUnits_escapeChar, ih,
      List.flatMap_cons]
    rfl

end Source

end RowQuery
