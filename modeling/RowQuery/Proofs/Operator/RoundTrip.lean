import RowQuery.Proofs.Json.Whole
import RowQuery.Proofs.Value.Apparent
import RowQuery.Serialized

/-!
# Values, operators and cache policies are read as they were serialized

A value is read back if it has no float, no UUID and no timestamp in it, so that it is what it
appears to be. Then an operator on such values is read back at any nesting that the reader
goes down to (`Operator.ofSource?_serialize`), and a cache policy always. As a document, the text of
either has the same members by name (`Operator.document_of_compact`).
-/

namespace RowQuery

/-! ### Values -/

namespace Value

mutual

/-- Whether a value is built from nulls, truth values, whole numbers, strings and lists. -/
def isPlain : Value → Bool
  | .null | .bool _ | .int _ | .string _ => true
  | .list items => arePlain items
  | .float _ | .uuid _ | .timestamp _ => false

def arePlain : List Value → Bool
  | [] => true
  | v :: vs => v.isPlain && arePlain vs

end

theorem arePlain_pair {v w : Value} (h : (v.isPlain && w.isPlain) = true) :
    arePlain [v, w] = true := by
  rw [Bool.and_eq_true] at h
  simp [arePlain, h.1, h.2]

mutual

theorem apparent_of_isPlain : (v : Value) → v.isPlain = true → v.apparent = v
  | .null, _ | .bool _, _ | .int _, _ | .string _, _ => rfl
  | .float _, hplain | .uuid _, hplain | .timestamp _, hplain => nomatch hplain
  | .list items, hplain => congrArg list (apparentItems_of_arePlain items hplain)

theorem apparentItems_of_arePlain : (vs : List Value) → arePlain vs = true →
    apparentItems vs = vs
  | [], _ => rfl
  | v :: vs, hplain => by
    rw [arePlain, Bool.and_eq_true] at hplain
    rw [apparentItems, apparent_of_isPlain v hplain.1, apparentItems_of_arePlain vs hplain.2]

end

mutual

/-- A plain value has whole numbers only. -/
theorem isWhole_serialize : (v : Value) → v.isPlain = true → v.serialize.isWhole = true
  | .null, _ | .bool _, _ | .string _, _ | .int _, _ => rfl
  | .float _, hplain | .uuid _, hplain | .timestamp _, hplain => nomatch hplain
  | .list items, hplain => areWhole_encodeItems items hplain

theorem areWhole_encodeItems : (vs : List Value) → arePlain vs = true →
    Json.areWhole (encodeItems "Z" vs) = true
  | [], _ => rfl
  | v :: vs, hplain => by
    rw [arePlain, Bool.and_eq_true] at hplain
    rw [encodeItems, Json.areWhole, Bool.and_eq_true]
    exact ⟨isWhole_serialize v hplain.1, areWhole_encodeItems vs hplain.2⟩

end

mutual

/-- There are no members to be put in order. -/
theorem byName_encode (zone : String) : (v : Value) → (v.encode zone).byName = v.encode zone
  | .null | .bool _ | .string _ | .int _ | .uuid _ | .timestamp _ => rfl
  | .float x => by
    rw [encode, Json.ofDouble]
    split <;> rfl
  | .list items => congrArg Json.arr (itemsByName_encodeItems zone items)

theorem itemsByName_encodeItems (zone : String) : (vs : List Value) →
    Json.itemsByName (encodeItems zone vs) = encodeItems zone vs
  | [] => rfl
  | v :: vs => by
    rw [encodeItems, Json.itemsByName, byName_encode zone v, itemsByName_encodeItems zone vs]

end

/-- A plain value is read back wherever the reader goes as deep as the value. -/
theorem ofSource?_serialize {v : Value} (hplain : v.isPlain = true) {depth : Nat}
    (hdepth : v.serialize.depth ≤ depth) :
    ofSource? depth v.serialize.printed = some v := by
  have hname : v.serialize.byName = v.serialize := byName_encode "Z" v
  rw [ofSource?, Source.json?_printed _ (isWhole_serialize v hplain) hdepth, hname]
  exact (ofJson?_serialize v).trans (congrArg some (apparent_of_isPlain v hplain))

/-- Values in an array are read back one by one. -/
theorem values?_serialize {vs : List Value} (hplain : arePlain vs = true) {depth : Nat}
    (hdepth : (Json.arr (vs.map serialize)).depth ≤ depth) :
    (Json.arr (vs.map serialize)).printed.values? depth = some vs := by
  cases depth with
  | zero => exact absurd hdepth (Nat.not_succ_le_zero _)
  | succ depth =>
    have hitems : (Json.printedItems (vs.map serialize)).mapM (ofSource? depth) = some vs := by
      replace hdepth : Json.depthItems (vs.map serialize) ≤ depth := Nat.le_of_succ_le_succ hdepth
      induction vs with
      | nil => rfl
      | cons v vs ih =>
        rw [arePlain, Bool.and_eq_true] at hplain
        rw [List.map_cons, Json.depthItems, Nat.max_le] at hdepth
        rw [List.map_cons, Json.printedItems, List.mapM_cons,
          ofSource?_serialize hplain.1 hdepth.1, ih hplain.2 hdepth.2]
        rfl
    exact hitems

end Value

/-! ### Members -/

namespace Source

theorem choice?_printed (s : String) (buffered : Bool) (depth : Nat) :
    (Json.str s).printed.choice? buffered depth = some s := StringUnit.text?_quoted s

theorem string?_printed (s : String) : (Json.str s).printed.string? = some s :=
  StringUnit.text?_quoted s

end Source

theorem PatternKind.ofName?_name (k : PatternKind) : ofName? k.name = some k := by
  cases k <;> rfl

namespace Pattern

theorem ofSource?_members {ms : List (List StringUnit × Source)} {kind text ignoreCase : Source}
    (h : (Source.obj ms).fields? =
      some [("kind", kind), ("text", text), ("case_insensitive", ignoreCase)])
    (buffered : Bool) (depth : Nat) :
    ofSource? buffered (depth + 1) (.obj ms) =
      ofSource?.make buffered depth kind text ignoreCase := by
  have hkind : Source.required? "kind" [("kind", kind), ("text", text),
      ("case_insensitive", ignoreCase)] = some kind := by
    simp [Source.required?, Source.unique?]
  have htext : Source.required? "text" [("kind", kind), ("text", text),
      ("case_insensitive", ignoreCase)] = some text := by
    simp [Source.required?, Source.unique?]
  have hcase : Source.required? "case_insensitive" [("kind", kind), ("text", text),
      ("case_insensitive", ignoreCase)] = some ignoreCase := by
    simp [Source.required?, Source.unique?]
  rw [ofSource?, h]
  simp only [Option.bind_eq_bind, Option.bind_some, hkind, htext, hcase]

theorem ofSource?_serialize (p : Pattern) (depth : Nat) :
    ofSource? false (depth + 1) p.serialize.printed = some p := by
  have hfields := Source.fields?_printed
    [("kind", .str p.kind.name), ("text", .str p.text), ("case_insensitive", .bool p.ignoreCase)]
  rw [serialize, Json.printed, ofSource?_members hfields, ofSource?.make,
    Source.choice?_printed, Source.string?_printed]
  simp only [Option.bind_eq_bind, Option.bind_some, PatternKind.ofName?_name]
  rfl

end Pattern

namespace Operator

section

variable (buffered : Bool) (depth : Nat) {ms : List (List StringUnit × Source)}

/-- The kind of an operator comes first, and then what stands beside it is read. -/
theorem ofSource?_members {tag : String} {value : Source}
    (h : (Source.obj ms).fields? = some [("kind", (Json.str tag).printed), ("value", value)]) :
    ofSource? buffered (depth + 1) (.obj ms) =
      ofSource?.read buffered (ofSource? buffered depth) depth tag value := by
  have hkind : Source.required? "kind" [("kind", (Json.str tag).printed), ("value", value)] =
      some (Json.str tag).printed := by
    simp [Source.required?, Source.unique?]
  have hvalue : Source.unique? "value" [("kind", (Json.str tag).printed), ("value", value)] =
      some (some value) := by
    simp [Source.unique?]
  have hfirst : ([("kind", (Json.str tag).printed), ("value", value)].find?
      fun f => f.1 == "kind" || f.1 == "value").map (·.1) = some "kind" := rfl
  rw [ofSource?, h]
  simp only [Option.bind_eq_bind, Option.bind_some, hkind, hvalue, hfirst,
    Source.choice?_printed]
  rfl

theorem ofSource?_kind (h : (Source.obj ms).fields? = some [("kind", (Json.str "isNull").printed)]) :
    ofSource? buffered (depth + 1) (.obj ms) = some isNull := by
  have hkind : Source.required? "kind" [("kind", (Json.str "isNull").printed)] =
      some (Json.str "isNull").printed := by
    simp [Source.required?, Source.unique?]
  have hvalue : Source.unique? "value" [("kind", (Json.str "isNull").printed)] = some none := by
    simp [Source.unique?]
  rw [ofSource?, h]
  simp only [Option.bind_eq_bind, Option.bind_some, hkind, hvalue, Source.choice?_printed]
  rfl

end

/-- Whether the values of an operator are plain. -/
def isPlain : Operator → Bool
  | equal v | moreThan v | moreThanOrEqual v | lessThan v | lessThanOrEqual v | arrayContains v =>
    v.isPlain
  | between low high => low.isPlain && high.isPlain
  | oneOf vs | arrayContainsAny vs => Value.arePlain vs
  | like _ | isNull => true
  | not o => o.isPlain

theorem depth_members (tag : String) (payload : Json) :
    (Json.obj (members tag (some payload))).depth = payload.depth + 1 := by
  show max 0 (max payload.depth 0) + 1 = payload.depth + 1
  omega

/-- An operator is read if what stands beside its kind is. -/
theorem ofSource?_tagged {tag : String} {payload : Json} {depth : Nat} {o : Operator}
    (hdepth : (Json.obj (members tag (some payload))).depth ≤ depth)
    (h : ∀ below, payload.depth ≤ below →
      ofSource?.read false (ofSource? false below) below tag payload.printed = some o) :
    ofSource? false depth (Json.obj (members tag (some payload))).printed = some o := by
  rw [depth_members] at hdepth
  cases depth with
  | zero => exact absurd hdepth (Nat.not_succ_le_zero _)
  | succ depth =>
    have hfields := Source.fields?_printed (members tag (some payload))
    rw [Json.printed] at hfields ⊢
    rw [ofSource?_members false depth hfields]
    exact h depth (Nat.le_of_succ_le_succ hdepth)

/-- An operator on plain values is read back wherever the reader goes as deep as the operator. -/
theorem ofSource?_serialize (o : Operator) (hplain : o.isPlain = true) {depth : Nat}
    (hdepth : o.serialize.depth ≤ depth) : ofSource? false depth o.serialize.printed = some o := by
  induction o generalizing depth with
  | equal v | moreThan v | moreThanOrEqual v | lessThan v | lessThanOrEqual v | arrayContains v =>
    refine ofSource?_tagged hdepth fun below hbelow => ?_
    exact congrArg (Option.map _) (Value.ofSource?_serialize hplain hbelow)
  | between low high =>
    refine ofSource?_tagged hdepth fun below hbelow => ?_
    have hvalues := Value.values?_serialize (Value.arePlain_pair hplain) hbelow
    show ofPayload? false below (Json.arr ([low, high].map Value.serialize)).printed "between" =
      some (between low high)
    rw [ofPayload?, hvalues]
  | like p =>
    refine ofSource?_tagged hdepth fun below hbelow => ?_
    cases below with
    | zero => exact absurd hbelow (Nat.not_succ_le_zero _)
    | succ below => exact congrArg (Option.map like) (p.ofSource?_serialize below)
  | oneOf vs | arrayContainsAny vs =>
    refine ofSource?_tagged hdepth fun below hbelow => ?_
    exact congrArg (Option.map _) (Value.values?_serialize hplain hbelow)
  | isNull =>
    cases depth with
    | zero => exact absurd hdepth (Nat.not_succ_le_zero _)
    | succ depth => exact ofSource?_kind false depth (Source.fields?_printed _)
  | not o ih =>
    refine ofSource?_tagged hdepth fun below hbelow => ?_
    exact congrArg (Option.map not) (ih hplain hbelow)

end Operator

/-! ### Cache policies -/

namespace Duration

theorem ofParts?_self (d : Duration) : ofParts? d.seconds.toNat d.nanos = some d := by
  obtain ⟨seconds, nanos, hnanos⟩ := d
  have hseconds := seconds.toNat_lt
  have hcarry : nanos / 1000000000 = 0 := Nat.div_eq_of_lt hnanos
  simp only [ofParts?, hcarry, Nat.add_zero, Nat.mod_eq_of_lt hnanos, UInt64.ofNat_toNat]
  exact if_pos hseconds

theorem ofSource?_members {ms : List (List StringUnit × Source)} {seconds nanos : Source}
    (h : (Source.obj ms).fields? = some [("secs", seconds), ("nanos", nanos)]) :
    ofSource? (.obj ms) = ofSource?.make seconds nanos := by
  have hseconds : Source.required? "secs" [("secs", seconds), ("nanos", nanos)] =
      some seconds := by
    simp [Source.required?, Source.unique?]
  have hnanos : Source.required? "nanos" [("secs", seconds), ("nanos", nanos)] = some nanos := by
    simp [Source.required?, Source.unique?]
  rw [ofSource?, h]
  simp only [Option.bind_eq_bind, Option.bind_some, hseconds, hnanos]
  rfl

theorem ofSource?_serialize (d : Duration) : ofSource? d.serialize.printed = some d := by
  have hseconds : (Json.ofUInt64 d.seconds).printed.below? 0x10000000000000000 =
      some d.seconds.toNat := Source.below?_ofInt d.seconds.toNat_lt (Nat.le_refl _)
  have hlt : d.nanos < 0x100000000 := Nat.lt_trans d.nanos_lt (by decide)
  have hprinted : (Json.ofNat d.nanos).printed = .num (.ofInt d.nanos) :=
    congrArg (fun n : Nat => Source.num (.ofInt n))
      (UInt64.toNat_ofNat_of_lt' (Nat.lt_trans hlt (by decide)))
  have hnanos : (Json.ofNat d.nanos).printed.below? 0x100000000 = some d.nanos := by
    rw [hprinted]
    exact Source.below?_ofInt hlt (by decide)
  have hfields := Source.fields?_printed [("secs", .ofUInt64 d.seconds), ("nanos", .ofNat d.nanos)]
  rw [serialize, Json.printed, ofSource?_members hfields, ofSource?.make, hseconds, hnanos]
  exact d.ofParts?_self

end Duration

/-- A cache policy is always read back. -/
theorem CachePolicy.ofSource?_serialize (p : CachePolicy) :
    ofSource? false p.serialize.printed = some p := by
  cases p with
  | disabled =>
    have hname : (Json.str "disabled").printed.choice? false Source.maxDepth = some "disabled" :=
      Source.choice?_printed ..
    unfold ofSource?
    rw [serialize, hname]
    rfl
  | standard =>
    have hname : (Json.str "default").printed.choice? false Source.maxDepth = some "default" :=
      Source.choice?_printed ..
    unfold ofSource?
    rw [serialize, hname]
    rfl
  | ttl d =>
    have hname : (Json.obj [("ttl", d.serialize)]).printed.choice? false Source.maxDepth = none :=
      rfl
    unfold ofSource?
    rw [serialize, hname]
    show (if StringUnit.text? (StringUnit.quoted "ttl") = some "ttl" then
      (Duration.ofSource? d.serialize.printed).map ttl else none) = some (ttl d)
    rw [if_pos (StringUnit.text?_quoted "ttl"), d.ofSource?_serialize]
    rfl

/-! ### Serialized forms and documents -/

section

variable (p : Pattern) (d : Duration) (c : CachePolicy) (o : Operator)

theorem Pattern.byName_serialize : p.serialize.byName = p.toJson := rfl

theorem Duration.byName_serialize : d.serialize.byName = d.toJson := rfl

theorem CachePolicy.byName_serialize : c.serialize.byName = c.toJson := by
  cases c with
  | disabled | standard => rfl
  | ttl d => exact congrArg (fun j => Json.mkObj [("ttl", j)]) d.byName_serialize

theorem Value.arr_byName_serialize (vs : List Value) :
    (Json.arr (vs.map Value.serialize)).byName = .arr (vs.map Value.serialize) := by
  rw [Json.byName]
  congr 1
  induction vs with
  | nil => rfl
  | cons v vs ih =>
    have hv : v.serialize.byName = v.serialize := byName_encode "Z" v
    rw [List.map_cons, Json.itemsByName, hv, ih]

/-- An operator's document has the members of its serialized form in the order of their names. -/
theorem Operator.byName_serialize : o.serialize.byName = o.toJson := by
  have htagged (tag : String) (payload : Json) :
      (Json.obj (members tag (some payload))).byName = tagged tag (some payload.byName) := rfl
  induction o with
  | equal v | moreThan v | moreThanOrEqual v | lessThan v | lessThanOrEqual v | arrayContains v =>
    exact (htagged _ _).trans (congrArg (fun j => tagged _ (some j)) (v.byName_encode "Z"))
  | between low high =>
    exact (htagged _ _).trans
      (congrArg (fun j => tagged _ (some j)) (Value.arr_byName_serialize [low, high]))
  | oneOf vs | arrayContainsAny vs =>
    exact (htagged _ _).trans
      (congrArg (fun j => tagged _ (some j)) (Value.arr_byName_serialize vs))
  | like p => exact (htagged _ _).trans (congrArg (fun j => tagged _ (some j)) p.byName_serialize)
  | isNull => rfl
  | not o ih => exact (htagged _ _).trans (congrArg (fun j => tagged _ (some j)) ih)

end

theorem Value.isWhole_arr {vs : List Value} (hplain : arePlain vs = true) :
    (Json.arr (vs.map serialize)).isWhole = true := by
  rw [Json.isWhole]
  induction vs with
  | nil => rfl
  | cons v vs ih =>
    rw [arePlain, Bool.and_eq_true] at hplain
    rw [List.map_cons, Json.areWhole, isWhole_serialize v hplain.1, ih hplain.2]
    rfl

theorem Operator.isWhole_serialize {o : Operator} (hplain : o.isPlain = true) :
    o.serialize.isWhole = true := by
  have htagged (tag : String) {payload : Json} (h : payload.isWhole = true) :
      (Json.obj (members tag (some payload))).isWhole = true := by
    show (true && (payload.isWhole && true)) = true
    rw [h]
    rfl
  induction o with
  | equal v | moreThan v | moreThanOrEqual v | lessThan v | lessThanOrEqual v | arrayContains v =>
    exact htagged _ (v.isWhole_serialize hplain)
  | between low high =>
    exact htagged _ (Value.isWhole_arr (Value.arePlain_pair hplain))
  | oneOf vs | arrayContainsAny vs => exact htagged _ (Value.isWhole_arr hplain)
  | like p => rfl
  | isNull => rfl
  | not o ih => exact htagged _ (ih hplain)

/-! ### Texts -/

/-- The text of an operator on plain values is read as its document. -/
theorem Operator.document_of_compact {o : Operator} (hplain : o.isPlain = true)
    (hdepth : o.serialize.depth ≤ Source.maxDepth) :
    Json.parse? o.serialize.compact = some o.toJson := by
  rw [Json.parse?_compact (isWhole_serialize hplain) hdepth, byName_serialize]

theorem CachePolicy.document_of_compact (c : CachePolicy) :
    Json.parse? c.serialize.compact = some c.toJson := by
  have hwhole : c.serialize.isWhole = true := by cases c <;> rfl
  have hdepth : c.serialize.depth ≤ 2 := by
    cases c with
    | disabled | standard => exact Nat.zero_le 2
    | ttl d => exact Nat.le_refl 2
  rw [Json.parse?_compact hwhole (Nat.le_trans hdepth (by decide)), byName_serialize]

/-- Two operators on plain values have the same text only if they are equal. -/
theorem Operator.eq_of_compact_eq {o p : Operator} (ho : o.isPlain = true) (hp : p.isPlain = true)
    (h : o.serialize.compact = p.serialize.compact) : o = p := by
  have hform := Json.compact_injective h
  have hread := o.ofSource?_serialize ho (Nat.le_refl _)
  rw [hform, p.ofSource?_serialize hp (Nat.le_refl _)] at hread
  exact (Option.some.inj hread).symm

/-- Values and operators built from nulls, truth values, whole numbers, strings and lists are read
back from the text that they are serialized to, if a reader goes as deep as they do, and cache
policies always are. So no two such operators have the same text. As a document, the text of an
operator or a policy has the same members by name. -/
theorem serialize_faithful :
    (∀ v : Value, v.isPlain = true → v.serialize.depth ≤ Source.maxDepth →
      Value.parse? v.serialize.compact = some v) ∧
    (∀ o : Operator, o.isPlain = true → o.serialize.depth ≤ Source.maxDepth →
      Operator.parse? o.serialize.compact = some o ∧
        Json.parse? o.serialize.compact = some o.toJson) ∧
    (∀ c : CachePolicy, CachePolicy.parse? c.serialize.compact = some c ∧
      Json.parse? c.serialize.compact = some c.toJson) ∧
    (∀ o p : Operator, o.isPlain = true → p.isPlain = true →
      o.serialize.compact = p.serialize.compact → o = p) := by
  refine ⟨fun v hplain hdepth => ?_, fun o hplain hdepth => ⟨?_, ?_⟩, fun c => ⟨?_, ?_⟩,
    fun o p => Operator.eq_of_compact_eq⟩
  · rw [Value.parse?, Source.readText?_compact]
    exact Value.ofSource?_serialize hplain hdepth
  · rw [Operator.parse?, Source.readText?_compact]
    exact o.ofSource?_serialize hplain hdepth
  · exact Operator.document_of_compact hplain hdepth
  · rw [CachePolicy.parse?, Source.readText?_compact]
    exact c.ofSource?_serialize
  · exact c.document_of_compact

/-- A list with a quote and a line feed in it, a negated range and an empty membership, and the test
for null next to the equality with null. -/
theorem serialize_faithful_samples :
    Value.parse? (Value.list [.null, .int (-7), .string "\"\n", .list []]).serialize.compact =
        some (.list [.null, .int (-7), .string "\"\n", .list []]) ∧
      Operator.parse? (Operator.not (.not (.between (.int 1) (.bool true)))).serialize.compact =
        some (.not (.not (.between (.int 1) (.bool true)))) ∧
      Operator.parse? (Operator.oneOf []).serialize.compact = some (.oneOf []) ∧
      (Operator.equal .null).serialize.compact ≠ Operator.isNull.serialize.compact := by
  obtain ⟨hvalues, hoperators, _, hdistinct⟩ := serialize_faithful
  refine ⟨hvalues _ rfl (by decide), (hoperators _ rfl (by decide)).1,
    (hoperators _ rfl (by decide)).1, fun h => ?_⟩
  cases hdistinct _ _ rfl rfl h

end RowQuery
