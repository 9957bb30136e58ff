import RowQuery.Proofs.Double.Numeral
import RowQuery.Proofs.Json.Quoted

/-!
# Documents are read as they were written

The text of a document is read up to its end, as the numerals and quoted strings that stand in it
(`readText?_compact`). These identify the document, so no two documents have the same text
(`compact_injective`).
-/

namespace RowQuery

open Text

/-! ### What is read -/

namespace Json

/-- The numeral of a number in JSON. -/
def Number.numeral : Number → Numeral
  | .int n _ => .ofInt n
  | .float x _ => x.numeral

mutual

/-- What is read for a document. -/
def printed : Json → Source
  | .null => .null
  | .bool b => .bool b
  | .num n => .num n.numeral
  | .str s => .str (StringUnit.quoted s)
  | .arr items => .arr (printedItems items)
  | .obj members => .obj (printedMembers members)

def printedItems : List Json → List Source
  | [] => []
  | j :: js => j.printed :: printedItems js

def printedMembers : List (String × Json) → List (List StringUnit × Source)
  | [] => []
  | (k, j) :: ms => (StringUnit.quoted k, j.printed) :: printedMembers ms

end

namespace Number

theorem text_numeral (n : Number) : n.numeral.text = n.text.toList := by
  cases n with
  | int n _ => exact Numeral.text_ofInt n
  | float x hx => exact Double.text_numeral hx

theorem proper_numeral (n : Number) : n.numeral.Proper := by
  cases n with
  | int n _ => exact Numeral.proper_ofInt n
  | float x _ => exact x.proper_numeral

theorem numeral_injective : Function.Injective numeral := by
  intro m n h
  cases m with
  | int m hm =>
    cases n with
    | int n hn =>
      have hvalue := Numeral.number?_ofInt hm
      rw [show Numeral.ofInt m = Numeral.ofInt n from h, Numeral.number?_ofInt hn] at hvalue
      exact (Option.some.inj hvalue).symm
    | float x _ => exact absurd h.symm (Numeral.ofDecimal_ne_ofInt _ _ m)
  | float x _ =>
    cases n with
    | int n _ => exact absurd h (Numeral.ofDecimal_ne_ofInt _ _ n)
    | float y _ =>
      cases Double.numeral_injective h
      rfl

end Number

end Json

theorem StringUnit.quoted_injective : Function.Injective StringUnit.quoted := fun s t h =>
  Option.some.inj ((StringUnit.text?_quoted s).symm.trans (h ▸ StringUnit.text?_quoted t))

/-! ### Bytes -/

namespace Source

theorem toList_toUTF8_append (s t : String) :
    (s ++ t).toUTF8.toList = s.toUTF8.toList ++ t.toUTF8.toList := by
  simp only [toList_toUTF8, String.toList_append, List.flatMap_append]

theorem toList_toUTF8_null : Json.null.compact.toUTF8.toList = [110, 117, 108, 108] :=
  (toList_toUTF8 _).trans rfl

theorem toList_toUTF8_true :
    (Json.bool true).compact.toUTF8.toList = [116, 114, 117, 101] :=
  (toList_toUTF8 _).trans rfl

theorem toList_toUTF8_false :
    (Json.bool false).compact.toUTF8.toList = [102, 97, 108, 115, 101] :=
  (toList_toUTF8 _).trans rfl

theorem toList_toUTF8_quote (s : String) :
    (Json.quote s).toUTF8.toList =
      34 :: ((s.toList.flatMap Json.escapeChar).flatMap String.utf8EncodeChar ++ [34]) := by
  rw [toList_toUTF8, Json.quote, String.toList_ofList, List.cons_append, List.flatMap_cons,
    List.flatMap_append]
  rfl

theorem toList_toUTF8_number (n : Json.Number) :
    n.text.toUTF8.toList = n.numeral.text.map asciiByte := by
  have hascii := Numeral.ascii_of_mem_text n.proper_numeral
  rw [n.text_numeral] at hascii ⊢
  exact toList_toUTF8_of_ascii hascii

theorem toList_toUTF8_arr (items : List Json) :
    (Json.arr items).compact.toUTF8.toList =
      91 :: ((",".intercalate (Json.compactItems items)).toUTF8.toList ++ [93]) := by
  have hopen : "[".toUTF8.toList = [91] := (toList_toUTF8 _).trans rfl
  have hclose : "]".toUTF8.toList = [93] := (toList_toUTF8 _).trans rfl
  rw [Json.compact, toList_toUTF8_append, toList_toUTF8_append, hopen, hclose]
  rfl

theorem toList_toUTF8_obj (members : List (String × Json)) :
    (Json.obj members).compact.toUTF8.toList =
      123 :: ((",".intercalate (Json.compactMembers members)).toUTF8.toList ++ [125]) := by
  have hopen : "\x7b".toUTF8.toList = [123] := (toList_toUTF8 _).trans rfl
  have hclose : "\x7d".toUTF8.toList = [125] := (toList_toUTF8 _).trans rfl
  rw [Json.compact, toList_toUTF8_append, toList_toUTF8_append, hopen, hclose]
  rfl

theorem toList_toUTF8_comma (s t : String) :
    (s ++ "," ++ t).toUTF8.toList = s.toUTF8.toList ++ 44 :: t.toUTF8.toList := by
  have hcomma : ",".toUTF8.toList = [44] := (toList_toUTF8 _).trans rfl
  rw [toList_toUTF8_append, toList_toUTF8_append, hcomma, List.append_assoc]
  rfl

theorem toList_toUTF8_item (j : Json) :
    (",".intercalate (Json.compactItems [j])).toUTF8.toList = j.compact.toUTF8.toList := by
  rw [Json.compactItems, Json.compactItems, String.intercalate_singleton]

theorem toList_toUTF8_items (j k : Json) (js : List Json) :
    (",".intercalate (Json.compactItems (j :: k :: js))).toUTF8.toList =
      j.compact.toUTF8.toList ++
        44 :: (",".intercalate (Json.compactItems (k :: js))).toUTF8.toList := by
  rw [Json.compactItems, Json.compactItems, String.intercalate_cons_cons, toList_toUTF8_comma]

/-- A member with its name between the quotes and what stands after it. -/
theorem toList_toUTF8_member (k : String) (j : Json) (bs : List UInt8) :
    (Json.quote k ++ ":" ++ j.compact).toUTF8.toList ++ bs =
      34 :: ((k.toList.flatMap Json.escapeChar).flatMap String.utf8EncodeChar ++
        34 :: 58 :: (j.compact.toUTF8.toList ++ bs)) := by
  have hcolon : ":".toUTF8.toList = [58] := (toList_toUTF8 _).trans rfl
  rw [toList_toUTF8_append, toList_toUTF8_append, toList_toUTF8_quote, hcolon]
  simp only [List.cons_append, List.append_assoc, List.nil_append]

theorem toList_toUTF8_lastMember (k : String) (j : Json) :
    (",".intercalate (Json.compactMembers [(k, j)])).toUTF8.toList =
      (Json.quote k ++ ":" ++ j.compact).toUTF8.toList := by
  rw [Json.compactMembers, Json.compactMembers, String.intercalate_singleton]

theorem toList_toUTF8_members (k : String) (j : Json) (m : String × Json)
    (ms : List (String × Json)) :
    (",".intercalate (Json.compactMembers ((k, j) :: m :: ms))).toUTF8.toList =
      (Json.quote k ++ ":" ++ j.compact).toUTF8.toList ++
        44 :: (",".intercalate (Json.compactMembers (m :: ms))).toUTF8.toList := by
  rw [Json.compactMembers, Json.compactMembers, String.intercalate_cons_cons,
    toList_toUTF8_comma]

/-- The first byte of a document is no blank and closes no array. -/
theorem exists_cons_compact (j : Json) :
    ∃ b bs, j.compact.toUTF8.toList = b :: bs ∧ isBlank b = false ∧ b ≠ 93 := by
  cases j with
  | null => exact ⟨110, _, toList_toUTF8_null, rfl, by decide⟩
  | bool b =>
    cases b with
    | true => exact ⟨116, _, toList_toUTF8_true, rfl, by decide⟩
    | false => exact ⟨102, _, toList_toUTF8_false, rfl, by decide⟩
  | num n =>
    have hdigit : ∀ d < 10, isBlank (asciiByte d.digitChar) = false ∧ asciiByte d.digitChar ≠ 93 := by
      decide
    obtain ⟨d, cs, hd, hfirst⟩ := Numeral.exists_cons_unsigned n.proper_numeral
    rw [Json.compact, toList_toUTF8_number]
    cases hsign : n.numeral.negative with
    | true =>
      rw [Numeral.text_of_negative hsign]
      exact ⟨45, _, rfl, rfl, by decide⟩
    | false =>
      rw [Numeral.text_of_not_negative hsign, hfirst]
      exact ⟨_, _, rfl, hdigit d hd⟩
  | str s =>
    rw [Json.compact, toList_toUTF8_quote]
    exact ⟨34, _, rfl, rfl, by decide⟩
  | arr items =>
    rw [toList_toUTF8_arr]
    exact ⟨91, _, rfl, rfl, by decide⟩
  | obj members =>
    rw [toList_toUTF8_obj]
    exact ⟨123, _, rfl, rfl, by decide⟩

theorem exists_cons_items (j : Json) (js : List Json) :
    ∃ b bs, (",".intercalate (Json.compactItems (j :: js))).toUTF8.toList = b :: bs ∧
      isBlank b = false ∧ b ≠ 93 := by
  obtain ⟨b, bs, hfirst, hb⟩ := exists_cons_compact j
  cases js with
  | nil =>
    rw [toList_toUTF8_item]
    exact ⟨b, bs, hfirst, hb⟩
  | cons k js =>
    rw [toList_toUTF8_items, hfirst]
    exact ⟨b, _, rfl, hb⟩

theorem exists_cons_members (m : String × Json) (ms : List (String × Json)) :
    ∃ bs, (",".intercalate (Json.compactMembers (m :: ms))).toUTF8.toList = 34 :: bs := by
  have hquote := toList_toUTF8_member m.1 m.2 []
  rw [List.append_nil] at hquote
  cases ms with
  | nil =>
    rw [toList_toUTF8_lastMember, hquote]
    exact ⟨_, rfl⟩
  | cons n ms =>
    rw [toList_toUTF8_members, hquote]
    exact ⟨_, rfl⟩

/-! ### Reading -/

section Step

variable {fuel : Nat} {bs after : List UInt8} {j : Source}

theorem readItems?_comma (h : readValue? fuel bs = some (j, 44 :: after)) :
    readItems? (fuel + 1) bs = (readItems? fuel after).map fun r => (j :: r.1, r.2) := by
  rw [readItems?, h]
  simp only [Option.bind_eq_bind, Option.bind_some, skipBlanks_cons 44 after rfl]
  cases readItems? fuel after <;> rfl

theorem readItems?_last (h : readValue? fuel bs = some (j, 93 :: after)) :
    readItems? (fuel + 1) bs = some ([j], after) := by
  rw [readItems?, h]
  simp only [Option.bind_eq_bind, Option.bind_some, skipBlanks_cons 93 after rfl]
  rfl

variable {us : List StringUnit} {inner : List UInt8}

theorem readMembers?_comma (hname : stringUnits bs = some (us, 58 :: inner))
    (h : readValue? fuel inner = some (j, 44 :: after)) :
    readMembers? (fuel + 1) (34 :: bs) =
      (readMembers? fuel after).map fun r => ((us, j) :: r.1, r.2) := by
  rw [readMembers?, skipBlanks_cons 34 _ rfl]
  simp only [hname, Option.bind_eq_bind, Option.bind_some, skipBlanks_cons 58 inner rfl, h,
    skipBlanks_cons 44 after rfl]
  cases readMembers? fuel after <;> rfl

theorem readMembers?_last (hname : stringUnits bs = some (us, 58 :: inner))
    (h : readValue? fuel inner = some (j, 125 :: after)) :
    readMembers? (fuel + 1) (34 :: bs) = some ([(us, j)], after) := by
  rw [readMembers?, skipBlanks_cons 34 _ rfl]
  simp only [hname, Option.bind_eq_bind, Option.bind_some, skipBlanks_cons 58 inner rfl, h,
    skipBlanks_cons 125 after rfl]
  rfl

end Step

theorem endsNumeral_cons {b : UInt8} (hb : isDigit b = false ∧ b ≠ 46 ∧ b ≠ 101 ∧ b ≠ 69)
    (bs : List UInt8) : EndsNumeral (b :: bs) := by
  rintro _ ⟨⟩
  exact hb

mutual

theorem readValue?_compact : (j : Json) → (fuel : Nat) → (rest : List UInt8) →
    2 * j.compact.toUTF8.toList.length ≤ fuel + 1 → EndsNumeral rest →
    readValue? (fuel + 1) (j.compact.toUTF8.toList ++ rest) = some (j.printed, rest)
  | .null, fuel, rest, _, _ => by
    rw [toList_toUTF8_null, readValue?]
    rfl
  | .bool true, fuel, rest, _, _ => by
    rw [toList_toUTF8_true, readValue?]
    rfl
  | .bool false, fuel, rest, _, _ => by
    rw [toList_toUTF8_false, readValue?]
    rfl
  | .num n, fuel, rest, _, hrest => by
    rw [Json.compact, toList_toUTF8_number]
    exact readValue?_numeral n.proper_numeral fuel hrest
  | .str s, fuel, rest, _, _ => by
    rw [Json.compact, toList_toUTF8_quote, List.cons_append, List.append_assoc, readValue?_quote]
    exact congrArg (Option.map _) (stringUnits_quoted s rest)
  | .arr [], fuel, rest, _, _ => by
    have hempty : (",".intercalate (Json.compactItems [])).toUTF8.toList = [] :=
      (toList_toUTF8 _).trans rfl
    rw [toList_toUTF8_arr, hempty]
    exact readValue?_bracket_close fuel rest
  | .arr (j :: js), fuel, rest, hfuel, _ => by
    obtain ⟨b, bs, hfirst, hblank, hclose⟩ := exists_cons_items j js
    rw [toList_toUTF8_arr] at hfuel ⊢
    simp only [List.length_cons, List.length_append, List.length_nil] at hfuel
    obtain ⟨fuel, rfl⟩ : ∃ f, fuel = f + 2 := ⟨fuel - 2, by omega⟩
    have hread := readItems?_compact (j :: js) (List.cons_ne_nil j js) fuel rest (by omega)
    rw [hfirst, List.cons_append] at hread
    rw [hfirst, List.cons_append, List.append_assoc, List.cons_append,
      readValue?_bracket_cons _ _ hblank hclose]
    exact congrArg (Option.map _) hread
  | .obj [], fuel, rest, _, _ => by
    have hempty : (",".intercalate (Json.compactMembers [])).toUTF8.toList = [] :=
      (toList_toUTF8 _).trans rfl
    rw [toList_toUTF8_obj, hempty]
    exact readValue?_brace_close fuel rest
  | .obj (m :: ms), fuel, rest, hfuel, _ => by
    obtain ⟨bs, hfirst⟩ := exists_cons_members m ms
    rw [toList_toUTF8_obj] at hfuel ⊢
    simp only [List.length_cons, List.length_append, List.length_nil] at hfuel
    obtain ⟨fuel, rfl⟩ : ∃ f, fuel = f + 2 := ⟨fuel - 2, by omega⟩
    have hread := readMembers?_compact (m :: ms) (List.cons_ne_nil m ms) fuel rest (by omega)
    rw [hfirst, List.cons_append] at hread
    rw [hfirst, List.cons_append, List.append_assoc, List.cons_append, readValue?_brace_quote]
    exact congrArg (Option.map _) hread

theorem readItems?_compact : (js : List Json) → js ≠ [] → (fuel : Nat) → (rest : List UInt8) →
    2 * (",".intercalate (Json.compactItems js)).toUTF8.toList.length ≤ fuel + 1 →
    readItems? (fuel + 2)
        ((",".intercalate (Json.compactItems js)).toUTF8.toList ++ 93 :: rest) =
      some (Json.printedItems js, rest)
  | [], hne, _, _, _ => absurd rfl hne
  | [j], _, fuel, rest, hfuel => by
    rw [toList_toUTF8_item] at hfuel ⊢
    exact readItems?_last
      (readValue?_compact j fuel (93 :: rest) hfuel (endsNumeral_cons (by decide) rest))
  | j :: k :: js, _, fuel, rest, hfuel => by
    rw [toList_toUTF8_items] at hfuel ⊢
    simp only [List.length_cons, List.length_append] at hfuel
    obtain ⟨fuel, rfl⟩ : ∃ f, fuel = f + 1 := ⟨fuel - 1, by omega⟩
    rw [List.append_assoc, List.cons_append,
      readItems?_comma (readValue?_compact j (fuel + 1) _ (by omega)
        (endsNumeral_cons (by decide) _)),
      readItems?_compact (k :: js) (List.cons_ne_nil k js) fuel rest (by omega)]
    rfl

theorem readMembers?_compact : (ms : List (String × Json)) → ms ≠ [] → (fuel : Nat) →
    (rest : List UInt8) →
    2 * (",".intercalate (Json.compactMembers ms)).toUTF8.toList.length ≤ fuel + 1 →
    readMembers? (fuel + 2)
        ((",".intercalate (Json.compactMembers ms)).toUTF8.toList ++ 125 :: rest) =
      some (Json.printedMembers ms, rest)
  | [], hne, _, _, _ => absurd rfl hne
  | [(k, j)], _, fuel, rest, hfuel => by
    have hlength := congrArg List.length (toList_toUTF8_member k j [])
    rw [toList_toUTF8_lastMember] at hfuel ⊢
    simp only [List.length_cons, List.length_append, List.length_nil] at hlength
    rw [toList_toUTF8_member]
    exact readMembers?_last (stringUnits_quoted k _)
      (readValue?_compact j fuel (125 :: rest) (by omega) (endsNumeral_cons (by decide) rest))
  | (k, j) :: m :: ms, _, fuel, rest, hfuel => by
    have hlength := congrArg List.length (toList_toUTF8_member k j [])
    rw [toList_toUTF8_members] at hfuel ⊢
    simp only [List.length_cons, List.length_append, List.length_nil] at hlength hfuel
    obtain ⟨fuel, rfl⟩ : ∃ f, fuel = f + 1 := ⟨fuel - 1, by omega⟩
    rw [List.append_assoc, toList_toUTF8_member, List.cons_append,
      readMembers?_comma (stringUnits_quoted k _) (readValue?_compact j (fuel + 1) _ (by omega)
        (endsNumeral_cons (by decide) _)),
      readMembers?_compact (m :: ms) (List.cons_ne_nil m ms) fuel rest (by omega)]
    rfl

end

/-- A document is read from its text, with nothing left over. -/
theorem readText?_compact (j : Json) : readText? j.compact = some j.printed := by
  have hread := readValue?_compact j (2 * j.compact.toUTF8.toList.length + 1) [] (by omega)
    endsNumeral_nil
  rw [List.append_nil] at hread
  rw [readText?, read?, hread]
  rfl

/-! ### Members -/

/-- The members of a document are read under their names. -/
theorem fields?_printed (ms : List (String × Json)) :
    (Json.obj ms).printed.fields? = some (ms.map fun m => (m.1, m.2.printed)) := by
  rw [Json.printed, fields?]
  induction ms with
  | nil => rfl
  | cons m ms ih => simp [Json.printedMembers, StringUnit.text?_quoted, ih]

end Source

/-! ### Documents apart -/

namespace Json

mutual

theorem printed_inj : {i j : Json} → i.printed = j.printed → i = j
  | .null, j, h => by
    cases j with
    | null => rfl
    | _ => cases h
  | .bool a, j, h => by
    cases j with
    | bool b => exact congrArg bool (Source.bool.inj h)
    | _ => cases h
  | .num m, j, h => by
    cases j with
    | num n => exact congrArg num (Number.numeral_injective (Source.num.inj h))
    | _ => cases h
  | .str s, j, h => by
    cases j with
    | str t => exact congrArg str (StringUnit.quoted_injective (Source.str.inj h))
    | _ => cases h
  | .arr is, j, h => by
    cases j with
    | arr js => exact congrArg arr (printedItems_inj (Source.arr.inj h))
    | _ => cases h
  | .obj ms, j, h => by
    cases j with
    | obj ns => exact congrArg obj (printedMembers_inj (Source.obj.inj h))
    | _ => cases h

theorem printedItems_inj : {is js : List Json} → printedItems is = printedItems js → is = js
  | [], [], _ => rfl
  | i :: is, j :: js, h => by
    obtain ⟨hj, hjs⟩ := List.cons.inj h
    rw [printed_inj hj, printedItems_inj hjs]

theorem printedMembers_inj : {ms ns : List (String × Json)} →
    printedMembers ms = printedMembers ns → ms = ns
  | [], [], _ => rfl
  | (k, i) :: ms, (l, j) :: ns, h => by
    obtain ⟨hm, hms⟩ := List.cons.inj h
    obtain ⟨hk, hj⟩ := Prod.mk.inj hm
    rw [StringUnit.quoted_injective hk, printed_inj hj, printedMembers_inj hms]

end

/-- No two documents have the same text. -/
theorem compact_injective : Function.Injective compact := fun i j h =>
  printed_inj (Option.some.inj
    ((Source.readText?_compact i).symm.trans (h ▸ Source.readText?_compact j)))

end Json

end RowQuery
