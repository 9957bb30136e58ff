import RowQuery.Proofs.Timestamp
import RowQuery.Proofs.Uuid
import RowQuery.Value.Json

/-!
# What the JSON of a value shows

The JSON of a value has no mark of its kind. It shows a UUID and a timestamp as their texts and a
float without a number as null, and all else as it is (`Value.ofJson?_serialize`). Two values have
the same JSON if they appear to be the same value (`Value.serialize_eq_iff`). They are equal if they
are also of the same kinds and have finite floats only (`Value.eq_of_apparent_eq`).
-/

namespace RowQuery.Value

mutual

/-- What a value appears to be from its JSON. -/
def apparent : Value → Value
  | .float x => if x.isFinite then .float x else .null
  | .list items => .list (apparentItems items)
  | .uuid u => .string u.text
  | .timestamp t => .string (t.text "Z")
  | v => v

def apparentItems : List Value → List Value
  | [] => []
  | v :: vs => v.apparent :: apparentItems vs

end

mutual

/-- Whether two values are of the same kind, and lists so item by item. -/
def sameKind : Value → Value → Bool
  | .null, .null | .bool _, .bool _ | .int _, .int _ | .float _, .float _
  | .string _, .string _ | .uuid _, .uuid _ | .timestamp _, .timestamp _ => true
  | .list as, .list bs => sameKinds as bs
  | _, _ => false

def sameKinds : List Value → List Value → Bool
  | [], [] => true
  | a :: as, b :: bs => a.sameKind b && sameKinds as bs
  | _, _ => false

end

mutual

/-- Whether every float in a value is finite. -/
def isFinite : Value → Bool
  | .float x => x.isFinite
  | .list items => areFinite items
  | _ => true

def areFinite : List Value → Bool
  | [] => true
  | v :: vs => v.isFinite && areFinite vs

end

/-! ### Reading what was written -/

mutual

/-- A value is read as what it appears to be. -/
theorem ofJson?_serialize : (v : Value) → ofJson? v.serialize = some v.apparent
  | .null | .bool _ | .string _ | .uuid _ | .timestamp _ => rfl
  | .int n => by
    have hn : n.toInt < 0x8000000000000000 := n.toInt_lt
    have hread : ofJson? (Value.int n).serialize =
        some (if n.toInt < 0x8000000000000000 then .int (.ofInt n.toInt)
          else .float (.ofInt n.toInt)) := rfl
    rw [hread, if_pos hn, Int64.ofInt_toInt]
    rfl
  | .float x => by
    have hread : ofJson? (Value.float x).serialize = ofJson? (Json.ofDouble x) := rfl
    rw [hread, Json.ofDouble, apparent]
    by_cases hx : x.isFinite = true
    · rw [dif_pos hx, if_pos hx, ofJson?]
    · rw [dif_neg hx, if_neg hx, ofJson?]
  | .list items => by
    have hread : ofJson? (Value.list items).serialize =
        (ofJsonItems? (encodeItems "Z" items)).map .list := rfl
    rw [hread, ofJsonItems?_encodeItems items]
    rfl

theorem ofJsonItems?_encodeItems : (vs : List Value) →
    ofJsonItems? (encodeItems "Z" vs) = some (apparentItems vs)
  | [] => rfl
  | v :: vs => by
    have hv : ofJson? (v.encode "Z") = some v.apparent := ofJson?_serialize v
    rw [encodeItems, ofJsonItems?, hv, ofJsonItems?_encodeItems vs]
    rfl

end

mutual

theorem serialize_apparent : (v : Value) → v.apparent.serialize = v.serialize
  | .null | .bool _ | .int _ | .string _ | .uuid _ | .timestamp _ => rfl
  | .float x => by
    rw [apparent]
    by_cases hx : x.isFinite = true
    · rw [if_pos hx]
    · have hnull : (Value.float x).serialize = Json.ofDouble x := rfl
      rw [if_neg hx, hnull, Json.ofDouble, dif_neg hx]
      rfl
  | .list items => congrArg Json.arr (encodeItems_apparentItems items)

theorem encodeItems_apparentItems : (vs : List Value) →
    encodeItems "Z" (apparentItems vs) = encodeItems "Z" vs
  | [] => rfl
  | v :: vs => by
    have hv : v.apparent.encode "Z" = v.encode "Z" := serialize_apparent v
    rw [apparentItems, encodeItems, encodeItems, hv, encodeItems_apparentItems vs]

end

variable {v w : Value}

theorem serialize_eq_iff : v.serialize = w.serialize ↔ v.apparent = w.apparent := by
  constructor
  · intro h
    exact Option.some.inj ((ofJson?_serialize v).symm.trans
      ((congrArg ofJson? h).trans (ofJson?_serialize w)))
  · intro h
    rw [← serialize_apparent v, h, serialize_apparent]

theorem map_serialize_eq_iff {vs ws : List Value} :
    vs.map serialize = ws.map serialize ↔ apparentItems vs = apparentItems ws := by
  induction vs generalizing ws with
  | nil => cases ws <;> simp [apparentItems]
  | cons v vs ih =>
    cases ws with
    | nil => simp [apparentItems]
    | cons w ws =>
      simp only [List.map_cons, apparentItems, List.cons.injEq, serialize_eq_iff, ih]

/-! ### Values of the same kinds -/

mutual

theorem eq_of_apparent_eq : (v w : Value) → v.sameKind w = true → v.isFinite = true →
    w.isFinite = true → v.apparent = w.apparent → v = w
  | .null, w, hkind, _, _, _ => by
    cases w with
    | null => rfl
    | _ => cases hkind
  | .bool _, w, hkind, _, _, h | .int _, w, hkind, _, _, h | .string _, w, hkind, _, _, h => by
    cases w with
    | bool | int | string => exact h
    | _ => cases hkind
  | .float x, w, hkind, hv, hw, h => by
    cases w with
    | float y =>
      rw [isFinite] at hv hw
      rwa [apparent, apparent, if_pos hv, if_pos hw] at h
    | _ => cases hkind
  | .list vs, w, hkind, hv, hw, h => by
    cases w with
    | list ws =>
      exact congrArg list (eq_of_apparentItems_eq vs ws hkind hv hw (Value.list.inj h))
    | _ => cases hkind
  | .uuid u, w, hkind, _, _, h => by
    cases w with
    | uuid u' => exact congrArg uuid (Uuid.text_injective (Value.string.inj h))
    | _ => cases hkind
  | .timestamp t, w, hkind, _, _, h => by
    cases w with
    | timestamp t' =>
      have hzone : Timestamp.NoDigit "Z".toList := Timestamp.noDigit_cons rfl
      exact congrArg timestamp (Timestamp.text_injective hzone (Value.string.inj h))
    | _ => cases hkind

theorem eq_of_apparentItems_eq : (vs ws : List Value) → sameKinds vs ws = true →
    areFinite vs = true → areFinite ws = true → apparentItems vs = apparentItems ws → vs = ws
  | [], [], _, _, _, _ => rfl
  | v :: vs, w :: ws, hkind, hv, hw, h => by
    rw [sameKinds, Bool.and_eq_true] at hkind
    rw [areFinite, Bool.and_eq_true] at hv hw
    rw [apparentItems, apparentItems, List.cons.injEq] at h
    rw [eq_of_apparent_eq v w hkind.1 hv.1 hw.1 h.1,
      eq_of_apparentItems_eq vs ws hkind.2 hv.2 hw.2 h.2]
  | [], _ :: _, hkind, _, _, _ | _ :: _, [], hkind, _, _, _ => nomatch hkind

end

end RowQuery.Value
