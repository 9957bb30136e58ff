import RowQuery.Proofs.Document.Rows

/-!
# Whole numbers in documents

Whole numbers are compared by the binary64 number nearest to each. Those that share one, and only
those, are taken for equal (`WholeNumber.compareWithin?_cases`); two different ones share one only
if both are 2^53 or more (`WholeNumber.Alike.two_pow_le`). Tests and sorting go by the order of the
whole numbers where no two different ones share a binary64 number, and only there
(`WholeNumber.exact_iff_value_eq_of_alike`).
-/

namespace RowQuery.Document

/-- A whole number of 64 bits, signed or unsigned. -/
structure WholeNumber where
  value : Int
  inRange : -0x8000000000000000 ≤ value ∧ value < 0x10000000000000000

namespace WholeNumber

variable (a b : WholeNumber)

def json : Json := .num (.int a.value a.inRange)

@[simp] theorem isNull_json : a.json.isNull = false := rfl

theorem natAbs_lt : a.value.natAbs < 2 ^ 64 := by
  have h := a.inRange
  omega

/-- Whether one binary64 number is nearest to both. -/
def Alike : Prop :=
  (a.value < 0 ↔ b.value < 0) ∧
    ∃ m, Double.RoundsTo m a.value.natAbs ∧ Double.RoundsTo m b.value.natAbs

variable {a b}

theorem alike_iff : a.Alike b ↔ Double.ofInt a.value = Double.ofInt b.value := by
  have hnega := Double.isNegative_ofInt a.natAbs_lt
  have hnegb := Double.isNegative_ofInt b.natAbs_lt
  have ha := Double.roundsTo_ofInt a.natAbs_lt
  have hb := Double.roundsTo_ofInt b.natAbs_lt
  constructor
  · rintro ⟨hsign, m, hma, hmb⟩
    refine Double.eq_of_magnitude_eq ?_ ((ha.unique hma).trans (hmb.unique hb))
    rw [hnega, hnegb, decide_eq_decide]
    exact hsign
  · intro h
    rw [h, hnegb, decide_eq_decide] at hnega
    exact ⟨hnega.symm, _, ha, h ▸ hb⟩

instance : DecidableRel Alike := fun _ _ => decidable_of_iff _ alike_iff.symm

theorem alike_iff_key :
    a.Alike b ↔ (Double.ofInt a.value).key = (Double.ofInt b.value).key :=
  alike_iff.trans (Double.key_ofInt_inj a.natAbs_lt b.natAbs_lt).symm

theorem alike_of_value_eq (h : a.value = b.value) : a.Alike b :=
  alike_iff.2 (congrArg Double.ofInt h)

/-- Different numbers that are alike have both more than 53 binary digits, or one is 2^53. -/
theorem Alike.two_pow_le (h : a.Alike b) (hne : a.value ≠ b.value) :
    2 ^ 53 ≤ a.value.natAbs ∧ 2 ^ 53 ≤ b.value.natAbs ∧ a.value.natAbs ≠ b.value.natAbs :=
  Double.two_pow_le_of_ofInt_eq a.natAbs_lt b.natAbs_lt (alike_iff.1 h) hne

/-! ### Comparison -/

variable (a b)

/-- Whole numbers stand in their order, up to those that are alike. -/
theorem compareWithin?_cases :
    a.Alike b ∧ compareWithin? a.json b.json = some .eq ∨
      ¬ a.Alike b ∧ a.value < b.value ∧ compareWithin? a.json b.json = some .lt ∨
      ¬ a.Alike b ∧ b.value < a.value ∧ compareWithin? a.json b.json = some .gt := by
  have hmono := Double.key_ofInt_mono a.natAbs_lt b.natAbs_lt
  have hanti := Double.key_ofInt_mono b.natAbs_lt a.natAbs_lt
  have hcompare : compareWithin? a.json b.json =
      some (compare (Double.ofInt a.value).key (Double.ofInt b.value).key) :=
    Json.Number.compare?_toDouble _ _
  rw [hcompare]
  by_cases h : a.Alike b
  · exact .inl ⟨h, congrArg some (Int.compare_eq_eq.2 (alike_iff_key.1 h))⟩
  · have hkey := mt alike_iff_key.2 h
    rcases lt_or_gt_of_ne (mt alike_of_value_eq h) with hlt | hgt
    · have hless := lt_of_le_of_ne (hmono hlt.le) hkey
      exact .inr (.inl ⟨h, hlt, congrArg some (Int.compare_eq_lt.2 hless)⟩)
    · have hgreater := lt_of_le_of_ne (hanti hgt.le) (Ne.symm hkey)
      exact .inr (.inr ⟨h, hgt, congrArg some (Int.compare_eq_gt.2 hgreater)⟩)

theorem equalValues_json : equalValues a.json b.json = decide (a.Alike b) := by
  have hequal : equalValues a.json b.json = (compareWithin? a.json b.json == some .eq) := rfl
  rw [hequal]
  rcases compareWithin?_cases a b with ⟨h, hcmp⟩ | ⟨h, _, hcmp⟩ | ⟨h, _, hcmp⟩ <;>
    simp [h, hcmp]

theorem holds_inequality :
    (FieldOp.lessThan.holds a.json b.json = true ↔ a.value < b.value ∧ ¬ a.Alike b) ∧
      (FieldOp.lessThanOrEqual.holds a.json b.json = true ↔ a.value < b.value ∨ a.Alike b) ∧
      (FieldOp.greaterThan.holds a.json b.json = true ↔ b.value < a.value ∧ ¬ a.Alike b) ∧
      (FieldOp.greaterThanOrEqual.holds a.json b.json = true ↔ b.value < a.value ∨ a.Alike b) := by
  simp only [FieldOp.holds]
  rcases compareWithin?_cases a b with ⟨h, hcmp⟩ | ⟨h, hlt, hcmp⟩ | ⟨h, hgt, hcmp⟩
  · simp [h, hcmp]
  · simp [h, hcmp, hlt, hlt.le]
  · simp [h, hcmp, hgt, hgt.le]

variable {a b} in
/-- Rows in the order of a sort key have their whole numbers up or down, up to those alike. -/
theorem order_of_compareAt {x y : Json} {field : String} {direction : Direction}
    (h : (compareAt ⟨field, direction⟩ x y).isLE = true) (hx : fieldOf x field = a.json)
    (hy : fieldOf y field = b.json) :
    match direction with
    | .asc => a.value < b.value ∨ a.Alike b
    | .desc => b.value < a.value ∨ a.Alike b := by
  have hvalues (o : Ordering) (hcmp : compareWithin? a.json b.json = some o) :
      compareValues a.json b.json = o := by
    rw [compareValues, hcmp]
    rfl
  cases direction with
  | asc =>
    have hle : (compareValues (fieldOf x field) (fieldOf y field)).isLE = true := h
    rw [hx, hy] at hle
    rcases compareWithin?_cases a b with ⟨ha, _⟩ | ⟨_, hlt, _⟩ | ⟨_, _, hcmp⟩
    · exact .inr ha
    · exact .inl hlt
    · rw [hvalues _ hcmp] at hle
      cases hle
  | desc =>
    have hle : (compareValues (fieldOf x field) (fieldOf y field)).swap.isLE = true := h
    rw [hx, hy] at hle
    rcases compareWithin?_cases a b with ⟨ha, _⟩ | ⟨_, _, hcmp⟩ | ⟨_, hgt, _⟩
    · exact .inr ha
    · rw [hvalues _ hcmp] at hle
      cases hle
    · exact .inl hgt

end WholeNumber

/-! ### Tests and sorting -/

/-- The order of the whole numbers in `S`, with those that are the same taken for equal, decides
tests and sorting. Rows are taken whole, so that they have the field that they are sorted by. -/
structure DecidedUpTo (same : WholeNumber → WholeNumber → Prop) (S : Set WholeNumber) : Prop where
  equal : ∀ a ∈ S, ∀ b ∈ S, FieldOp.equal.holds a.json b.json = true ↔ same a b
  notEqual : ∀ a ∈ S, ∀ b ∈ S, FieldOp.notEqual.holds a.json b.json = true ↔ ¬ same a b
  lessThan : ∀ a ∈ S, ∀ b ∈ S,
    FieldOp.lessThan.holds a.json b.json = true ↔ a.value < b.value ∧ ¬ same a b
  lessThanOrEqual : ∀ a ∈ S, ∀ b ∈ S,
    FieldOp.lessThanOrEqual.holds a.json b.json = true ↔ a.value < b.value ∨ same a b
  greaterThan : ∀ a ∈ S, ∀ b ∈ S,
    FieldOp.greaterThan.holds a.json b.json = true ↔ b.value < a.value ∧ ¬ same a b
  greaterThanOrEqual : ∀ a ∈ S, ∀ b ∈ S,
    FieldOp.greaterThanOrEqual.holds a.json b.json = true ↔ b.value < a.value ∨ same a b
  oneOf : ∀ a ∈ S, ∀ bs : List WholeNumber, (∀ b ∈ bs, b ∈ S) →
    (FieldOp.oneOf.holds a.json (.arr (bs.map WholeNumber.json)) = true ↔ ∃ b ∈ bs, same a b)
  notOneOf : ∀ a ∈ S, ∀ bs : List WholeNumber, (∀ b ∈ bs, b ∈ S) →
    (FieldOp.notOneOf.holds a.json (.arr (bs.map WholeNumber.json)) = true ↔ ∀ b ∈ bs, ¬ same a b)
  arrayContains : ∀ items : List WholeNumber, (∀ a ∈ items, a ∈ S) → ∀ b ∈ S,
    (FieldOp.arrayContains.holds (.arr (items.map WholeNumber.json)) b.json = true ↔
      ∃ a ∈ items, same a b)
  ascending : ∀ (store : Store) (q : Query) (field : String) (order : List OrderBy),
    (store.rows { q with order := ⟨field, .asc⟩ :: order, select := [] }).Pairwise fun x y =>
      ∀ a ∈ S, ∀ b ∈ S, fieldOf x field = a.json → fieldOf y field = b.json →
        a.value < b.value ∨ same a b
  descending : ∀ (store : Store) (q : Query) (field : String) (order : List OrderBy),
    (store.rows { q with order := ⟨field, .desc⟩ :: order, select := [] }).Pairwise fun x y =>
      ∀ a ∈ S, ∀ b ∈ S, fieldOf x field = a.json → fieldOf y field = b.json →
        b.value < a.value ∨ same a b

/-- Tests and sorting go by the order of the whole numbers in `S`. -/
def Exact (S : Set WholeNumber) : Prop := DecidedUpTo (fun a b => a.value = b.value) S

namespace WholeNumber

variable {same : WholeNumber → WholeNumber → Prop} {S : Set WholeNumber}

/-- What is taken for equal is what is alike, whatever it is called. -/
theorem decidedUpTo_iff : DecidedUpTo same S ↔ ∀ a ∈ S, ∀ b ∈ S, same a b ↔ a.Alike b := by
  have hequal (a b : WholeNumber) : FieldOp.equal.holds a.json b.json = true ↔ a.Alike b := by
    simp [FieldOp.holds, equalValues_json]
  constructor
  · intro hdecided a ha b hb
    exact (hdecided.equal a ha b hb).symm.trans (hequal a b)
  · intro h
    exact {
      equal := fun a ha b hb => by rw [h a ha b hb, hequal]
      notEqual := fun a ha b hb => by simp [FieldOp.holds, equalValues_json, h a ha b hb]
      lessThan := fun a ha b hb => by rw [h a ha b hb, (holds_inequality a b).1]
      lessThanOrEqual := fun a ha b hb => by rw [h a ha b hb, (holds_inequality a b).2.1]
      greaterThan := fun a ha b hb => by rw [h a ha b hb, (holds_inequality a b).2.2.1]
      greaterThanOrEqual := fun a ha b hb => by rw [h a ha b hb, (holds_inequality a b).2.2.2]
      oneOf := fun a ha bs hbs => by
        have hsame : (∃ b ∈ bs, same a b) ↔ ∃ b ∈ bs, a.Alike b :=
          exists_congr fun b => and_congr_right fun hb => h a ha b (hbs b hb)
        simp [FieldOp.holds, Json.items?, equalValues_json, hsame]
      notOneOf := fun a ha bs hbs => by
        have hsame : (∀ b ∈ bs, ¬ same a b) ↔ ∀ b ∈ bs, ¬ a.Alike b :=
          forall₂_congr fun b hb => not_congr (h a ha b (hbs b hb))
        simp [FieldOp.holds, Json.items?, equalValues_json, hsame]
      arrayContains := fun items hitems b hb => by
        have hsame : (∃ a ∈ items, same a b) ↔ ∃ a ∈ items, a.Alike b :=
          exists_congr fun a => and_congr_right fun ha => h a (hitems a ha) b hb
        simp [FieldOp.holds, Json.items?, equalValues_json, hsame]
      ascending := fun store _ _ _ =>
        (pairwise_compareAt_rows store _ rfl rfl).imp fun hle a ha b hb hx hy =>
          Or.imp_right (h a ha b hb).2 (order_of_compareAt hle hx hy)
      descending := fun store _ _ _ =>
        (pairwise_compareAt_rows store _ rfl rfl).imp fun hle a ha b hb hx hy =>
          Or.imp_right (h a ha b hb).2 (order_of_compareAt hle hx hy) }

/-- Whole numbers are tested and sorted in their order, up to those that have one nearest binary64
number. So their order alone decides exactly where no two of them share one, and always up to
2^53. -/
theorem exact_iff_value_eq_of_alike (S : Set WholeNumber) :
    DecidedUpTo Alike S ∧
      (Exact S ↔ ∀ a ∈ S, ∀ b ∈ S, a.Alike b → a.value = b.value) ∧
      ((∀ a ∈ S, a.value.natAbs ≤ 2 ^ 53) → Exact S) := by
  have hexact : Exact S ↔ ∀ a ∈ S, ∀ b ∈ S, a.Alike b → a.value = b.value := by
    rw [Exact, decidedUpTo_iff]
    constructor
    · exact fun h a ha b hb => (h a ha b hb).2
    · exact fun h a ha b hb => ⟨alike_of_value_eq, h a ha b hb⟩
  have halike : DecidedUpTo Alike S := decidedUpTo_iff.2 fun _ _ _ _ => Iff.rfl
  refine ⟨halike, hexact, fun hsmall => hexact.2 fun a ha b hb hab => ?_⟩
  by_contra hne
  have hlarge := hab.two_pow_le hne
  have hsmalla := hsmall a ha
  have hsmallb := hsmall b hb
  omega

/-- Two numbers past 2^53 with one nearest binary64 number are taken for equal. -/
theorem exists_equal_holds_of_value_ne :
    ∃ a b : WholeNumber, a.value = 0x20000000000001 ∧ b.value = 0x20000000000000 ∧
      FieldOp.equal.holds a.json b.json = true ∧ ¬ Exact {a, b} := by
  have hequal : FieldOp.equal.holds (json ⟨0x20000000000001, by decide⟩)
      (json ⟨0x20000000000000, by decide⟩) = true := by decide +kernel
  refine ⟨_, _, rfl, rfl, hequal, fun h => ?_⟩
  have hvalue := (h.equal _ (.inl rfl) _ (.inr rfl)).1 hequal
  cases hvalue

end WholeNumber

end RowQuery.Document
