import RowQuery.Json.Printer
import RowQuery.Proofs.Double.Shortest
import RowQuery.Proofs.Json.Numeral

/-!
# The numeral of a binary64 number

The JSON text of a finite number is a numeral (`text_numeral`) with a point or an exponent in it,
and its value is that of the shortest decimal. So no two numbers have the same numeral
(`numeral_injective`).
-/

namespace RowQuery

/-! ### Values -/

theorem decimalValue_append (ds es : List Nat) :
    decimalValue (ds ++ es) = decimalValue ds * 10 ^ es.length + decimalValue es := by
  have hfrom (n : Nat) : es.foldl (fun n d => 10 * n + d) n =
      n * 10 ^ es.length + es.foldl (fun n d => 10 * n + d) 0 := by
    induction es generalizing n with
    | nil => simp
    | cons e es ih =>
      rw [List.foldl_cons, ih, List.foldl_cons, ih (10 * 0 + e), List.length_cons]
      ring
  rw [decimalValue, List.foldl_append, hfrom]
  rfl

theorem decimalValue_replicate_zero (k : Nat) : decimalValue (List.replicate k 0) = 0 := by
  induction k with
  | zero => rfl
  | succ k ih => exact ih

/-- The decimal place of the leading digit. -/
def Decimal.place (d : Decimal) : Int := d.exponent + (decimalDigits d.digits).length - 1

namespace Numeral

variable (n : Numeral)

/-- The number of a numeral without its sign. -/
def absValue : ℚ :=
  decimalValue (n.whole ++ n.fraction) * 10 ^ (n.exponent.getD 0 - n.fraction.length)

/-- The numeral that JSON has for a decimal. -/
def ofDecimal (negative : Bool) (d : Decimal) : Numeral :=
  let ds := decimalDigits d.digits
  if Layout.json.isPositional d.place then
    if 0 ≤ d.exponent then ⟨negative, ds ++ List.replicate d.exponent.toNat 0, [0], none⟩
    else if 0 ≤ d.place then
      ⟨negative, ds.take (d.place + 1).toNat, ds.drop (d.place + 1).toNat, none⟩
    else ⟨negative, [0], List.replicate (-d.place - 1).toNat 0 ++ ds, none⟩
  else ⟨negative, ds.take 1, ds.drop 1, some d.place⟩

variable (negative : Bool) (d : Decimal)

theorem negative_ofDecimal : (ofDecimal negative d).negative = negative := by
  simp only [ofDecimal]
  split_ifs <;> rfl

theorem pointed_of_ne_nil {ds : List Nat} (h : ds ≠ []) :
    pointed ds = '.' :: ds.map Nat.digitChar := by
  cases ds with
  | nil => exact absurd rfl h
  | cons d ds => rfl

variable {d} in
/-- A decimal with digits after the point has digits there. -/
theorem drop_place_ne_nil (h : ¬ 0 ≤ d.exponent) :
    (decimalDigits d.digits).drop (d.place + 1).toNat ≠ [] := by
  have hplace : d.exponent + (decimalDigits d.digits).length - 1 = d.place := rfl
  have hlength := List.length_pos_iff.2 (decimalDigits_ne_nil d.digits)
  rw [Ne, List.drop_eq_nil_iff]
  omega

theorem text_ofDecimal : (ofDecimal negative d).unsigned = (Layout.json.text d).toList := by
  have hdigits : (Nat.repr d.digits).toList = (decimalDigits d.digits).map Nat.digitChar := by
    rw [map_digitChar_decimalDigits]
    exact Nat.toList_repr
  have hpoint : Layout.json.wholePoint = true := rfl
  have hplace : d.exponent + (decimalDigits d.digits).length - 1 = d.place := rfl
  simp only [Layout.text, String.toList_ofList, hdigits, List.length_map, hpoint, hplace, if_true,
    ofDecimal]
  split_ifs with hpositional hwhole hpartly hone
  · simp only [unsigned, pointed, marked, List.map_append, List.map_replicate, List.append_assoc]
    rfl
  · rw [unsigned, pointed_of_ne_nil (drop_place_ne_nil hwhole), List.map_take, List.map_drop]
    exact congrArg _ (List.append_nil _)
  · have hfraction : List.replicate (-d.place - 1).toNat 0 ++ decimalDigits d.digits ≠ [] :=
      List.append_ne_nil_of_right_ne_nil _ (decimalDigits_ne_nil _)
    rw [unsigned, pointed_of_ne_nil hfraction, List.map_append, List.map_replicate]
    exact congrArg _ (List.append_nil _)
  · have hfraction : (decimalDigits d.digits).drop 1 = [] := List.drop_eq_nil_iff.2 hone.le
    rw [unsigned, hfraction, List.map_take, List.append_nil]
    rfl
  · have hfraction : (decimalDigits d.digits).drop 1 ≠ [] := by
      have hne := List.length_pos_iff.2 (decimalDigits_ne_nil d.digits)
      rw [Ne, List.drop_eq_nil_iff]
      omega
    rw [unsigned, pointed_of_ne_nil hfraction, List.map_take, List.map_drop, List.append_assoc]
    rfl

/-- A point among the digits divides by a power of ten. -/
theorem absValue_split (ds : List Nat) (k : Nat) (e : Option Int) :
    absValue ⟨negative, ds.take k, ds.drop k, e⟩ =
      decimalValue ds * 10 ^ (e.getD 0 - (ds.length - k : Nat)) := by
  rw [absValue, List.take_append_drop, List.length_drop]

theorem absValue_ofDecimal : (ofDecimal negative d).absValue = d.value := by
  have hvalue := decimalValue_decimalDigits d.digits
  have hlength := List.length_pos_iff.2 (decimalDigits_ne_nil d.digits)
  have hplace : d.exponent + (decimalDigits d.digits).length - 1 = d.place := rfl
  rw [Decimal.value]
  simp only [ofDecimal]
  split_ifs with hpositional hwhole hpartly
  · obtain ⟨k, hk⟩ := Int.eq_ofNat_of_zero_le hwhole
    rw [absValue, hk, Int.toNat_natCast, decimalValue_append, decimalValue_append,
      decimalValue_replicate_zero, hvalue, List.length_replicate, zpow_natCast]
    simp only [Option.getD_none, List.length_singleton]
    have hzero : decimalValue [0] = 0 := rfl
    rw [hzero, Nat.add_zero, Nat.add_zero, show (0 - (1 : Nat) : ℤ) = -1 from rfl, zpow_neg_one]
    push_cast
    field_simp
  · rw [absValue_split, hvalue]
    congr 2
    simp only [Option.getD_none]
    omega
  · rw [absValue, decimalValue_append, decimalValue_append, decimalValue_replicate_zero, hvalue]
    have hzero : decimalValue [0] = 0 := rfl
    rw [hzero, Nat.zero_mul, Nat.zero_mul, Nat.zero_add, Nat.zero_add]
    congr 2
    simp only [Option.getD_none, List.length_append, List.length_replicate]
    omega
  · rw [absValue_split, hvalue]
    congr 2
    simp only [Option.getD_some]
    omega

theorem proper_split {ds : List Nat} (hds : ∀ d ∈ ds, d < 10) (hne : ds ≠ []) {k : Nat}
    (hk : 0 < k) (hzero : ds.head? = some 0 → ds.take k = [0]) (e : Option Int) :
    Proper ⟨negative, ds.take k, ds.drop k, e⟩ where
  whole_ne_nil := by
    rw [Ne, List.take_eq_nil_iff]
    exact not_or.2 ⟨hk.ne', hne⟩
  whole_eq_zero hhead := hzero (by rwa [List.head?_take, if_neg hk.ne'] at hhead)
  whole_lt d hd := hds d (List.mem_of_mem_take hd)
  fraction_lt d hd := hds d (List.mem_of_mem_drop hd)

theorem proper_ofDecimal (h : d.digits = 0 → d.exponent = 0) : (ofDecimal negative d).Proper := by
  have hlt := lt_ten_of_mem_decimalDigits d.digits
  have hne := decimalDigits_ne_nil d.digits
  have hlength := List.length_pos_iff.2 hne
  have hplace : d.exponent + (decimalDigits d.digits).length - 1 = d.place := rfl
  have hzeros (k : Nat) : ∀ n ∈ List.replicate k 0, n < 10 := by
    intro n hn
    rw [List.eq_of_mem_replicate hn]
    decide
  have hzero (hhead : (decimalDigits d.digits).head? = some 0) :
      decimalDigits d.digits = [0] ∧ d.exponent = 0 := by
    rcases Nat.eq_zero_or_pos d.digits with hd | hd
    · exact ⟨congrArg decimalDigits hd, h hd⟩
    · exact absurd hhead (head?_decimalDigits hd)
  simp only [ofDecimal]
  split_ifs with hpositional hwhole hpartly
  · refine ⟨List.append_ne_nil_of_left_ne_nil hne _, fun hhead => ?_,
      List.forall_mem_append.2 ⟨hlt, hzeros _⟩, hzeros 1⟩
    rw [List.head?_append_of_ne_nil _ hne] at hhead
    obtain ⟨hdigits, hexponent⟩ := hzero hhead
    rw [hdigits, hexponent]
    rfl
  · refine proper_split negative hlt hne (by omega) (fun hhead => ?_) none
    exact absurd (hzero hhead).2 (by omega)
  · exact ⟨List.cons_ne_nil _ _, fun _ => rfl, hzeros 1,
      List.forall_mem_append.2 ⟨hzeros _, hlt⟩⟩
  · refine proper_split negative hlt hne (by decide) (fun hhead => ?_) _
    rw [(hzero hhead).1]
    rfl

/-- A decimal is written with a point or an exponent. -/
theorem ofDecimal_ne_ofInt (n : Int) : ofDecimal negative d ≠ ofInt n := by
  intro h
  have hfraction : (ofDecimal negative d).fraction = [] := congrArg fraction h
  have hexponent : (ofDecimal negative d).exponent = none := congrArg exponent h
  simp only [ofDecimal] at hfraction hexponent
  split at hfraction
  · split_ifs at hfraction with hwhole hpartly
    · exact drop_place_ne_nil hwhole hfraction
    · exact List.append_ne_nil_of_right_ne_nil _ (decimalDigits_ne_nil _) hfraction
  · rename_i hpositional
    rw [if_neg hpositional] at hexponent
    cases hexponent

end Numeral

/-! ### Numbers -/

namespace Double

variable {x y : Double}

theorem eq_of_magnitude_eq (hsign : x.isNegative = y.isNegative)
    (hmagnitude : x.magnitude = y.magnitude) : x = y := by
  have hx := x.bits.toNat_lt
  have hy := y.bits.toNat_lt
  have hiff := decide_eq_decide.1 hsign
  simp only [magnitude, signBit] at hmagnitude hiff
  have hbits : x.bits = y.bits := UInt64.toNat_inj.1 (by omega)
  cases x
  cases y
  exact congrArg mk hbits

theorem isZero_iff : x.isZero = true ↔ x.magnitude = 0 := beq_iff_eq

/-- The decimal that is written for a magnitude. -/
def written (x : Double) : Decimal := if x.isZero then ⟨0, 0⟩ else x.shortest .even

/-- The numeral of a finite number in JSON. -/
def numeral (x : Double) : Numeral := .ofDecimal x.isNegative x.written

theorem written_eq_shortest (hx : 0 < x.magnitude) : x.written = x.shortest .even :=
  if_neg fun hzero => hx.ne' (isZero_iff.1 hzero)

theorem value_written_of_zero (hx : x.magnitude = 0) : x.written.value = 0 := by
  rw [written, if_pos (isZero_iff.2 hx), Decimal.value]
  norm_num

theorem value_written_pos (hx : 0 < x.magnitude) : 0 < x.written.value := by
  rw [written_eq_shortest hx]
  exact (roundsTo_shortest hx .even).pos hx

theorem text_numeral (hx : x.isFinite = true) : x.numeral.text = (x.text .json).toList := by
  have hnan : x.isNaN = false := by
    simp only [isFinite, isNaN, decide_eq_true_eq, decide_eq_false_iff_not] at hx ⊢
    omega
  have hdecimal : (if x.isZero then Layout.json.text ⟨0, 0⟩
      else if x.isFinite then Layout.json.text (x.shortest Layout.json.tie) else "inf") =
        Layout.json.text x.written := by
    rw [if_pos hx, written]
    split_ifs <;> rfl
  rw [text, hnan, hdecimal]
  simp only [Bool.false_eq_true, if_false, String.toList_append]
  rw [numeral, Numeral.text, Numeral.text_ofDecimal, Numeral.negative_ofDecimal]
  congr 1
  split_ifs <;> rfl

theorem proper_numeral (x : Double) : x.numeral.Proper := by
  refine Numeral.proper_ofDecimal _ _ fun hdigits => ?_
  rcases Nat.eq_zero_or_pos x.magnitude with hx | hx
  · rw [written, if_pos (isZero_iff.2 hx)]
  · rw [written_eq_shortest hx] at hdigits
    exact absurd hdigits (digits_shortest_pos hx .even).ne'

/-- No two numbers have the same numeral. -/
theorem numeral_injective : Function.Injective numeral := by
  intro x y h
  have hsign : x.isNegative = y.isNegative := by
    have := congrArg Numeral.negative h
    rwa [numeral, numeral, Numeral.negative_ofDecimal, Numeral.negative_ofDecimal] at this
  have hvalue : x.written.value = y.written.value := by
    have := congrArg Numeral.absValue h
    rwa [numeral, numeral, Numeral.absValue_ofDecimal, Numeral.absValue_ofDecimal] at this
  refine eq_of_magnitude_eq hsign ?_
  rcases Nat.eq_zero_or_pos x.magnitude with hx | hx <;>
    rcases Nat.eq_zero_or_pos y.magnitude with hy | hy
  · rw [hx, hy]
  · exact absurd (value_written_of_zero hx) (hvalue ▸ (value_written_pos hy).ne')
  · exact absurd (value_written_of_zero hy) (hvalue ▸ (value_written_pos hx).ne')
  · rw [written_eq_shortest hx, written_eq_shortest hy] at hvalue
    exact (roundsTo_shortest hx .even).unique (hvalue ▸ roundsTo_shortest hy .even)

end Double

end RowQuery
