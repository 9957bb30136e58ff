import RowQuery.Text.Base64
import RowQuery.Text.Blank

/-!
# Base64 reads back what it writes

Bytes are read back from their digits (`decode?_encode`), and no digit is blank, so a written text
is its own trimmed form (`trim_encode`). A text that is cut off is never read as the bytes that it
was written for (`prefix_of_decode?`).
-/

namespace RowQuery.Text

namespace Base64

/-! ### Digits -/

theorem digitValue?_digit : ∀ n < 64, digitValue? (digit n) = some n := by
  decide +kernel

theorem isBlank_digit : ∀ n < 64, isBlank (digit n) = false := by
  decide +kernel

/-! ### Groups of digits -/

section Groups

variable {i j k l : Nat} (hi : i < 64) (hj : j < 64)

include hi hj

theorem decode?_two :
    decode? [digit i, digit j] =
      if (i * 64 + j) % 16 = 0 then some [UInt8.ofNat ((i * 64 + j) / 16)] else none := by
  simp only [decode?, digitValue?_digit i hi, digitValue?_digit j hj, Option.bind_eq_bind,
    Option.bind_some]

variable (hk : k < 64)

include hk

theorem decode?_three :
    decode? [digit i, digit j, digit k] =
      if ((i * 64 + j) * 64 + k) % 4 = 0 then
        some [UInt8.ofNat (((i * 64 + j) * 64 + k) / 1024),
          UInt8.ofNat (((i * 64 + j) * 64 + k) / 4)]
      else none := by
  simp only [decode?, digitValue?_digit i hi, digitValue?_digit j hj, digitValue?_digit k hk,
    Option.bind_eq_bind, Option.bind_some]

theorem decode?_four (hl : l < 64) (ds : List Char) :
    decode? (digit i :: digit j :: digit k :: digit l :: ds) =
      (decode? ds).map fun bytes =>
        UInt8.ofNat ((((i * 64 + j) * 64 + k) * 64 + l) / 65536) ::
          UInt8.ofNat ((((i * 64 + j) * 64 + k) * 64 + l) / 256) ::
            UInt8.ofNat (((i * 64 + j) * 64 + k) * 64 + l) :: bytes := by
  simp only [decode?, digitValue?_digit i hi, digitValue?_digit j hj, digitValue?_digit k hk,
    digitValue?_digit l hl, Option.bind_eq_bind, Option.bind_some]
  cases decode? ds <;> rfl

end Groups

/-! ### Reading back -/

section Bytes

variable {a b : UInt8} {i j k : Nat} {out : List UInt8}

theorem ofNat_eq {n : Nat} (h : n % 256 = a.toNat) : UInt8.ofNat n = a := by
  apply UInt8.toNat_inj.1
  simpa using h

/-- Two digits whose upper bits are those of a byte are read as that byte, if they are read. -/
theorem eq_of_decode?_two (hi : i < 64) (hj : j < 64) (ha : (i * 64 + j) / 16 = a.toNat)
    (h : decode? [digit i, digit j] = some out) : out = [a] := by
  have hbyte := a.toNat_lt
  rw [decode?_two hi hj, ofNat_eq (a := a) (by omega)] at h
  split at h
  · exact (Option.some.inj h).symm
  · cases h

theorem eq_of_decode?_three (hi : i < 64) (hj : j < 64) (hk : k < 64)
    (ha : ((i * 64 + j) * 64 + k) / 1024 = a.toNat)
    (hb : ((i * 64 + j) * 64 + k) / 4 % 256 = b.toNat)
    (h : decode? [digit i, digit j, digit k] = some out) : out = [a, b] := by
  have hbyte := a.toNat_lt
  rw [decode?_three hi hj hk, ofNat_eq (a := a) (by omega), ofNat_eq hb] at h
  split at h
  · exact (Option.some.inj h).symm
  · cases h

/-- A whole group is read as its three bytes, whatever follows it. -/
theorem decode?_group (a b c : UInt8) (ds : List Char) :
    let n := (a.toNat * 256 + b.toNat) * 256 + c.toNat
    decode? (digit (n / 262144) :: digit (n / 4096 % 64) :: digit (n / 64 % 64) ::
      digit (n % 64) :: ds) = (decode? ds).map fun bytes => a :: b :: c :: bytes := by
  have ha := a.toNat_lt
  have hb := b.toNat_lt
  have hc := c.toNat_lt
  intro n
  rw [decode?_four (by omega) (by omega) (by omega) (by omega), ofNat_eq (a := a) (by omega),
    ofNat_eq (a := b) (by omega), ofNat_eq (a := c) (by omega)]

end Bytes

theorem decode?_encode : (bs : List UInt8) → decode? (encode bs) = some bs
  | [] => rfl
  | [a] => by
    have ha := a.toNat_lt
    rw [encode, decode?_two (by omega) (by omega), if_pos (by omega), ofNat_eq (a := a) (by omega)]
  | [a, b] => by
    have ha := a.toNat_lt
    have hb := b.toNat_lt
    rw [encode, decode?_three (by omega) (by omega) (by omega), if_pos (by omega),
      ofNat_eq (a := a) (by omega), ofNat_eq (a := b) (by omega)]
  | a :: b :: c :: rest => by
    rw [encode, decode?_group, decode?_encode rest, Option.map_some]

/-- What is cut off at its end is refused, or read as bytes that are cut off at their end. -/
theorem prefix_of_decode? : (bs : List UInt8) → {ds : List Char} → {out : List UInt8} →
    ds <+: encode bs → ds ≠ encode bs → decode? ds = some out → out <+: bs ∧ out ≠ bs
  | _, [], _, _, hne, h => by
    cases h
    exact ⟨List.nil_prefix, fun hnil => hne (hnil ▸ rfl)⟩
  | _, [_], _, _, _, h => nomatch h
  | [], _ :: _ :: _, _, hds, _, _ => nomatch List.prefix_nil.1 hds
  | [a], _ :: _ :: _, _, hds, hne, _ => by
    rw [encode, List.cons_prefix_cons, List.cons_prefix_cons] at hds
    obtain ⟨rfl, rfl, hrest⟩ := hds
    rw [List.prefix_nil.1 hrest] at hne
    exact absurd rfl hne
  | [a, b], _ :: _ :: _, _, hds, hne, h => by
    have ha := a.toNat_lt
    have hb := b.toNat_lt
    rw [encode, List.cons_prefix_cons, List.cons_prefix_cons] at hds
    obtain ⟨rfl, rfl, hrest⟩ := hds
    rcases List.prefix_cons_iff.1 hrest with rfl | ⟨_, rfl, hnil⟩
    · rw [eq_of_decode?_two (a := a) (by omega) (by omega) (by omega) h]
      exact ⟨⟨[b], rfl⟩, nofun⟩
    · rw [List.prefix_nil.1 hnil] at hne
      exact absurd rfl hne
  | a :: b :: c :: rest, _ :: _ :: _, _, hds, hne, h => by
    have ha := a.toNat_lt
    have hb := b.toNat_lt
    have hc := c.toNat_lt
    rw [encode, List.cons_prefix_cons, List.cons_prefix_cons] at hds
    obtain ⟨rfl, rfl, hrest⟩ := hds
    rcases List.prefix_cons_iff.1 hrest with rfl | ⟨_, rfl, hlast⟩
    · rw [eq_of_decode?_two (a := a) (by omega) (by omega) (by omega) h]
      exact ⟨⟨b :: c :: rest, rfl⟩, nofun⟩
    rcases List.prefix_cons_iff.1 hlast with rfl | ⟨more, rfl, hmore⟩
    · rw [eq_of_decode?_three (a := a) (b := b) (by omega) (by omega) (by omega) (by omega)
        (by omega) h]
      exact ⟨⟨c :: rest, rfl⟩, nofun⟩
    · -- a whole group is read as its three bytes, and what follows is cut off
      rw [decode?_group] at h
      obtain ⟨bytes, hbytes, rfl⟩ := Option.map_eq_some_iff.1 h
      have hcut : more ≠ encode rest := fun heq => hne (heq ▸ rfl)
      obtain ⟨⟨last, rfl⟩, hproper⟩ := prefix_of_decode? rest hmore hcut hbytes
      refine ⟨⟨last, rfl⟩, fun heq => hproper ?_⟩
      exact (List.cons.inj (List.cons.inj (List.cons.inj heq).2).2).2

/-! ### Written texts -/

/-- A written text has digits only. -/
theorem exists_digit_of_mem_encode : (bs : List UInt8) → ∀ d ∈ encode bs, ∃ n < 64, d = digit n
  | [] => nofun
  | [a] => by
    have ha := a.toNat_lt
    simp only [encode, List.forall_mem_cons]
    refine ⟨⟨_, by omega, rfl⟩, ⟨_, by omega, rfl⟩, List.forall_mem_nil _⟩
  | [a, b] => by
    have ha := a.toNat_lt
    have hb := b.toNat_lt
    simp only [encode, List.forall_mem_cons]
    refine ⟨⟨_, by omega, rfl⟩, ⟨_, by omega, rfl⟩, ⟨_, by omega, rfl⟩, List.forall_mem_nil _⟩
  | a :: b :: c :: rest => by
    have ha := a.toNat_lt
    have hb := b.toNat_lt
    have hc := c.toNat_lt
    simp only [encode, List.forall_mem_cons]
    exact ⟨⟨_, by omega, rfl⟩, ⟨_, by omega, rfl⟩, ⟨_, by omega, rfl⟩, ⟨_, by omega, rfl⟩,
      exists_digit_of_mem_encode rest⟩

theorem encode_ne_nil {bs : List UInt8} (h : bs ≠ []) : encode bs ≠ [] := by
  intro hnil
  have hback := decode?_encode bs
  rw [hnil] at hback
  exact h (Option.some.inj hback).symm

end Base64

theorem dropWhile_eq_self {cs : List Char} (h : ∀ c ∈ cs, isBlank c = false) :
    cs.dropWhile isBlank = cs := by
  cases cs with
  | nil => rfl
  | cons c cs => rw [List.dropWhile_cons_of_neg (by simp [h c (.head _)])]

/-- Blanks around a text are trimmed off. -/
theorem trim_padded {before cs after : List Char} (hbefore : ∀ c ∈ before, isBlank c = true)
    (hcs : ∀ c ∈ cs, isBlank c = false) (hafter : ∀ c ∈ after, isBlank c = true) :
    trim (before ++ cs ++ after) = cs := by
  have hback : ∀ c ∈ after.reverse, isBlank c = true := fun c hc => hafter c (List.mem_reverse.1 hc)
  have hreverse : ∀ c ∈ cs.reverse, isBlank c = false := fun c hc => hcs c (List.mem_reverse.1 hc)
  rw [trim, List.append_assoc, List.dropWhile_append_of_pos hbefore]
  cases cs with
  | nil =>
    have hnone : (after ++ []).dropWhile isBlank = [] := List.dropWhile_append_of_pos hafter
    rw [List.nil_append, ← List.append_nil after, hnone]
    rfl
  | cons c cs =>
    rw [List.cons_append, List.dropWhile_cons_of_neg (by simp [hcs c (.head _)]),
      ← List.cons_append, List.reverse_append, List.dropWhile_append_of_pos hback,
      dropWhile_eq_self hreverse, List.reverse_reverse]

theorem trim_eq_self {cs : List Char} (h : ∀ c ∈ cs, isBlank c = false) : trim cs = cs := by
  simpa using @trim_padded [] cs [] nofun h nofun

/-- No blanks are written. -/
theorem Base64.isBlank_of_mem_encode (bs : List UInt8) : ∀ d ∈ encode bs, isBlank d = false := by
  intro d hd
  obtain ⟨n, hn, rfl⟩ := exists_digit_of_mem_encode bs d hd
  exact isBlank_digit n hn

theorem Base64.trim_encode (bs : List UInt8) : trim (encode bs) = encode bs :=
  trim_eq_self (isBlank_of_mem_encode bs)

end RowQuery.Text
