import RowQuery.Page
import RowQuery.Proofs.Json.Text
import RowQuery.Proofs.Text.Base64

/-!
# Page tokens are read as they were written

A token is opaque to a client, and reading it gives back the cursor that it was made from, as long
as the cursor has room for a row (`decode_encode`). A token that is cut off is never read as a
cursor (`decode_prefix`).
-/

namespace RowQuery

open Text

namespace Cursor

/-! ### The document inside -/

section

variable (c : Cursor)

/-- What stands inside a token. -/
def document : Json := .obj [("offset", .ofUInt64 c.offset), ("limit", .ofUInt64 c.limit)]

theorem text_eq_compact : c.text = c.document.compact := by
  have hnumber (n : UInt64) : (Json.ofUInt64 n).compact = toString n := rfl
  have hoffset : Json.quote "offset" = "\"offset\"" := by decide
  have hlimit : Json.quote "limit" = "\"limit\"" := by decide
  rw [document, Json.compact, Json.compactMembers, Json.compactMembers, Json.compactMembers,
    String.intercalate_cons_cons, String.intercalate_singleton, hnumber, hnumber, hoffset, hlimit]
  apply String.toList_inj.1
  simp [text]

theorem readText?_text : Source.readText? c.text = some c.document.printed := by
  rw [text_eq_compact, Source.readText?_compact]

theorem ofSource?_members {ms : List (List StringUnit × Source)} {first size : Source}
    (h : (Source.obj ms).fields? = some [("offset", first), ("limit", size)]) :
    ofSource? (.obj ms) =
      first.uint64?.bind fun first => size.uint64?.map fun size => ⟨first, size⟩ := by
  have hoffset : Source.required? "offset" [("offset", first), ("limit", size)] = some first := by
    simp [Source.required?, Source.unique?]
  have hlimit : Source.required? "limit" [("offset", first), ("limit", size)] = some size := by
    simp [Source.required?, Source.unique?]
  rw [ofSource?, h]
  simp only [Option.bind_eq_bind, Option.bind_some, hoffset, hlimit]
  cases size.uint64? <;> rfl

theorem ofSource?_document : ofSource? c.document.printed = some c := by
  have hnumber (n : UInt64) : (Json.ofUInt64 n).printed.uint64? = some n := Source.uint64?_ofInt n
  have hfields := Source.fields?_printed
    [("offset", Json.ofUInt64 c.offset), ("limit", Json.ofUInt64 c.limit)]
  rw [document, Json.printed, ofSource?_members hfields, hnumber, hnumber]
  rfl

end

/-- No closing brace (125) stands in a number. -/
theorem not_mem_number (n : UInt64) : (125 : UInt8) ∉ (Json.ofUInt64 n).compact.toUTF8.toList := by
  have hdigit : ∀ d < 10, asciiByte d.digitChar ≠ 125 := by decide
  have hdigits : (Numeral.ofInt n.toNat).text = (decimalDigits n.toNat).map Nat.digitChar :=
    (Numeral.text_ofInt _).trans
      ((toList_toString_ofNat _).trans (map_digitChar_decimalDigits _).symm)
  have hbytes : (Json.ofUInt64 n).compact.toUTF8.toList =
      (Numeral.ofInt n.toNat).text.map asciiByte := Source.toList_toUTF8_number _
  rw [hbytes, hdigits, List.map_map, List.mem_map]
  rintro ⟨d, hd, heq⟩
  exact hdigit d (lt_ten_of_mem_decimalDigits _ d hd) heq

theorem not_mem_member {k : String}
    (hk : (125 : UInt8) ∉ (k.toList.flatMap Json.escapeChar).flatMap String.utf8EncodeChar)
    (n : UInt64) :
    (125 : UInt8) ∉ (Json.quote k ++ ":" ++ (Json.ofUInt64 n).compact).toUTF8.toList := by
  have hbytes := Source.toList_toUTF8_member k (Json.ofUInt64 n) []
  rw [List.append_nil] at hbytes
  rw [hbytes]
  simp only [List.mem_cons, List.mem_append, hk, not_mem_number, List.not_mem_nil]
  decide

/-- The bytes inside a token: a brace on each side, and no closing one between them. -/
theorem exists_braces (c : Cursor) :
    ∃ inner, c.text.toUTF8.toList = 123 :: (inner ++ [125]) ∧ (125 : UInt8) ∉ inner := by
  have hoffset : (125 : UInt8) ∉
      ("offset".toList.flatMap Json.escapeChar).flatMap String.utf8EncodeChar := by decide
  have hlimit : (125 : UInt8) ∉
      ("limit".toList.flatMap Json.escapeChar).flatMap String.utf8EncodeChar := by decide
  rw [text_eq_compact]
  refine ⟨_, Source.toList_toUTF8_obj _, ?_⟩
  rw [Source.toList_toUTF8_members, Source.toList_toUTF8_lastMember]
  simp only [List.mem_cons, List.mem_append, not_mem_member hoffset, not_mem_member hlimit]
  decide

/-! ### Whole tokens -/

/-- A token is read as the cursor that it was written for, unless that has no room for a row, also
with blanks around it. -/
theorem decode_padded_eq (c : Cursor) {before after : List Char}
    (hbefore : ∀ d ∈ before, isBlank d = true) (hafter : ∀ d ∈ after, isBlank d = true) :
    decode (String.ofList (before ++ c.encode.toList ++ after)) =
      if c.limit = 0 then .error .invalidToken else .ok c := by
  have hblank : ∀ d ∈ c.encode.toList, isBlank d = false := by
    rw [encode, String.toList_ofList]
    exact Base64.isBlank_of_mem_encode _
  have hread : Source.read? c.text.toUTF8.toList = some c.document.printed := c.readText?_text
  rw [decode, String.toList_ofList, trim_padded hbefore hblank hafter, encode,
    String.toList_ofList, Base64.decode?_encode, Option.bind_some, hread, Option.bind_some,
    ofSource?_document]

theorem decode_padded {c : Cursor} (h : c.limit ≠ 0) {before after : List Char}
    (hbefore : ∀ d ∈ before, isBlank d = true) (hafter : ∀ d ∈ after, isBlank d = true) :
    decode (String.ofList (before ++ c.encode.toList ++ after)) = .ok c := by
  rw [decode_padded_eq c hbefore hafter, if_neg h]

theorem decode_encode_eq (c : Cursor) :
    decode c.encode = if c.limit = 0 then .error .invalidToken else .ok c := by
  have hread := @decode_padded_eq c [] [] nofun nofun
  rwa [List.nil_append, List.append_nil, String.ofList_toList] at hread

theorem decode_encode {c : Cursor} (h : c.limit ≠ 0) : decode c.encode = .ok c := by
  rw [decode_encode_eq, if_neg h]

theorem decode_encode_of_limit_eq_zero {c : Cursor} (h : c.limit = 0) :
    decode c.encode = .error .invalidToken := by
  rw [decode_encode_eq, if_pos h]

theorem limit_ne_zero_of_decode {token : String} {c : Cursor} (h : decode token = .ok c) :
    c.limit ≠ 0 := by
  unfold decode at h
  split at h
  · split at h
    · cases h
    · cases h
      assumption
  · cases h

/-- A token is not blank. -/
theorem trim_encode_ne_nil (c : Cursor) : trim c.encode.toList ≠ [] := by
  obtain ⟨inner, htext, _⟩ := c.exists_braces
  rw [encode, String.toList_ofList, Base64.trim_encode, htext]
  exact Base64.encode_ne_nil (List.cons_ne_nil _ _)

/-- Two cursors never have the same token. -/
theorem encode_injective : Function.Injective encode := by
  intro c d h
  have hbytes : c.text.toUTF8.toList = d.text.toUTF8.toList := by
    have hdecode := congrArg (Base64.decode? ·.toList) h
    simp only [encode, String.toList_ofList, Base64.decode?_encode] at hdecode
    exact Option.some.inj hdecode
  have hread : some c.document.printed = some d.document.printed := by
    rw [← c.readText?_text, ← d.readText?_text, Source.readText?, Source.readText?, hbytes]
  have hcursor := c.ofSource?_document
  rw [Option.some.inj hread, ofSource?_document] at hcursor
  exact (Option.some.inj hcursor).symm

/-! ### Tokens that are cut off -/

/-- What is cut off of the bytes inside a token is no document. -/
theorem read?_prefix {c : Cursor} {bs : List UInt8} (hcut : bs <+: c.text.toUTF8.toList)
    (hne : bs ≠ c.text.toUTF8.toList) : Source.read? bs = none := by
  obtain ⟨inner, htext, hclose⟩ := c.exists_braces
  rw [htext] at hcut hne
  rcases List.prefix_cons_iff.1 hcut with rfl | ⟨body, rfl, hbody⟩
  · rfl
  · rcases List.prefix_concat_iff.1 hbody with rfl | hinner
    · exact absurd rfl hne
    · exact Source.read?_eq_none_of_not_mem fun hmem => hclose (hinner.mem hmem)

theorem decode_prefix {c : Cursor} {token : String} (hcut : token.toList <+: c.encode.toList)
    (hne : token ≠ c.encode) : decode token = .error .invalidToken := by
  have hproper : token.toList ≠ c.encode.toList := fun h => hne (String.toList_inj.1 h)
  rw [encode, String.toList_ofList] at hcut hproper
  have hblank : ∀ d ∈ token.toList, isBlank d = false := fun d hd =>
    Base64.isBlank_of_mem_encode _ d (hcut.mem hd)
  have hnone : (Base64.decode? token.toList).bind Source.read? = none := by
    cases hdecode : Base64.decode? token.toList with
    | none => rfl
    | some bs =>
      obtain ⟨hcut, hshort⟩ := Base64.prefix_of_decode? _ hcut hproper hdecode
      exact read?_prefix hcut hshort
  rw [decode, trim_eq_self hblank, hnone]
  rfl

/-! ### Tokens in the hands of a client -/

/-- Tokens give their cursors back, also between blanks, and no two cursors share one. What is cut
off of a token is refused, and whatever is read as a cursor is a cursor with room for a row, which
its own token gives back. -/
theorem token_laws :
    (∀ (c : Cursor) (before after : List Char), 1 ≤ c.limit →
      (∀ d ∈ before, isBlank d = true) → (∀ d ∈ after, isBlank d = true) →
        decode (String.ofList (before ++ c.encode.toList ++ after)) = .ok c) ∧
    Function.Injective encode ∧
    (∀ (c : Cursor) (token : String), token.toList <+: c.encode.toList → token ≠ c.encode →
      decode token = .error .invalidToken) ∧
    (∀ (token : String) (c : Cursor), decode token = .ok c →
      1 ≤ c.limit ∧ decode c.encode = .ok c) := by
  have hpos (c : Cursor) : 1 ≤ c.limit ↔ c.limit ≠ 0 := by
    rw [UInt64.le_iff_toNat_le, Ne, ← UInt64.toNat_inj]
    exact Nat.one_le_iff_ne_zero
  refine ⟨fun c before after hlimit hbefore hafter => ?_, encode_injective,
    fun c token => decode_prefix, fun token c h => ?_⟩
  · exact decode_padded ((hpos c).1 hlimit) hbefore hafter
  · have hlimit := limit_ne_zero_of_decode h
    exact ⟨(hpos c).2 hlimit, decode_encode hlimit⟩

/-- The token of the third page of ten rows between blanks, its first four characters, and the
token that gives the numbers in an array. -/
theorem token_laws_page :
    decode "  eyJvZmZzZXQiOjIwLCJsaW1pdCI6MTB9\u3000" = .ok ⟨20, 10⟩ ∧
      decode "eyJv" = .error .invalidToken ∧
      decode "WzIwLDEwXQ" = .ok ⟨20, 10⟩ ∧ decode (encode ⟨20, 10⟩) = .ok ⟨20, 10⟩ := by
  obtain ⟨hpadded, _, hcut, hread⟩ := token_laws
  have htoken : encode ⟨20, 10⟩ = "eyJvZmZzZXQiOjIwLCJsaW1pdCI6MTB9" := by
    rw [encode, toList_toUTF8]
    decide +kernel
  have hnumbers : ((Base64.decode? (trim "WzIwLDEwXQ".toList)).bind Source.read?).bind ofSource? =
      some ⟨20, 10⟩ := by decide +kernel
  have harray : decode "WzIwLDEwXQ" = .ok ⟨20, 10⟩ := by
    rw [decode, hnumbers]
    rfl
  refine ⟨?_, ?_, harray, (hread _ _ harray).2⟩
  · have hspace : isBlank ' ' = true := rfl
    have hwide : isBlank '\u3000' = true := rfl
    have hwhole := hpadded ⟨20, 10⟩ [' ', ' '] ['\u3000'] (by decide)
      (List.forall_mem_cons.2 ⟨hspace, List.forall_mem_singleton.2 hspace⟩)
      (List.forall_mem_singleton.2 hwide)
    rwa [htoken] at hwhole
  · have hproper : "eyJv".toList <+: "eyJvZmZzZXQiOjIwLCJsaW1pdCI6MTB9".toList ∧
        "eyJv" ≠ "eyJvZmZzZXQiOjIwLCJsaW1pdCI6MTB9" := by decide +kernel
    rw [← htoken] at hproper
    exact hcut ⟨20, 10⟩ "eyJv" hproper.1 hproper.2

end Cursor

end RowQuery
