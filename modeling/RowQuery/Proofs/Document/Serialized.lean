import RowQuery.Proofs.Json.Text
import RowQuery.Proofs.Keyed
import RowQuery.Serialized

/-!
# The text of a query tells it apart

Rows are kept under the JSON text of a query. Members that are left out, filters of three types, any
names and any operands all leave the texts of two queries different, unless the queries are equal
(`Query.compact_eq_iff`).
-/

namespace RowQuery

/-! ### Numbers -/

namespace Json

theorem ofUInt64_inj {m n : UInt64} (h : ofUInt64 m = ofUInt64 n) : m = n := by
  have hint : (m.toNat : Int) = n.toNat := Number.int.inj (Json.num.inj h)
  exact UInt64.toNat_inj.1 (Int.ofNat_inj.1 hint)

theorem ofNat_inj {m n : Nat} (hm : m < 0x10000000000000000) (hn : n < 0x10000000000000000)
    (h : ofNat m = ofNat n) : m = n := by
  have hnum := congrArg UInt64.toNat (ofUInt64_inj h)
  rwa [UInt64.toNat_ofNat_of_lt' hm, UInt64.toNat_ofNat_of_lt' hn] at hnum

end Json

/-! ### Parts of a query -/

theorem Duration.serialize_inj {d e : Duration} (h : d.serialize = e.serialize) : d = e := by
  obtain ⟨seconds, nanos, hd⟩ := d
  obtain ⟨seconds', nanos', he⟩ := e
  simp only [serialize, Json.obj.injEq, List.cons.injEq, Prod.mk.injEq, true_and, and_true] at h
  obtain ⟨hseconds, hnanos⟩ := h
  cases Json.ofUInt64_inj hseconds
  cases Json.ofNat_inj (by omega) (by omega) hnanos
  rfl

theorem Direction.name_inj {d e : Direction} (h : d.name = e.name) : d = e := by
  have hback : ∀ d : Direction, ofName? d.name = some d := by
    intro d
    cases d <;> rfl
  exact Option.some.inj ((hback d).symm.trans ((congrArg ofName? h).trans (hback e)))

theorem OrderBy.serialize_inj {o p : OrderBy} (h : o.serialize = p.serialize) : o = p := by
  obtain ⟨field, direction⟩ := o
  obtain ⟨field', direction'⟩ := p
  simp only [serialize, Json.obj.injEq, List.cons.injEq, Prod.mk.injEq, Json.str.injEq, true_and,
    and_true] at h
  obtain ⟨rfl, hdirection⟩ := h
  cases Direction.name_inj hdirection
  rfl

namespace Document

theorem FieldOp.name_inj {o p : FieldOp} (h : o.name = p.name) : o = p :=
  Option.some.inj ((ofName?_name o).symm.trans ((congrArg ofName? h).trans (ofName?_name p)))

mutual

theorem Filter.serialize_inj : ∀ f g : Filter, f.serialize = g.serialize → f = g
  | .field name op operand, .field name' op' operand', h => by
    simp only [serialize, Json.obj.injEq, List.cons.injEq, Prod.mk.injEq, Json.str.injEq, true_and,
      and_true] at h
    obtain ⟨rfl, hop, rfl⟩ := h
    cases FieldOp.name_inj hop
    rfl
  | .and fs, .and gs, h => by
    simp only [serialize, Json.obj.injEq, List.cons.injEq, Prod.mk.injEq, Json.arr.injEq, true_and,
      and_true] at h
    rw [serializeAll_inj fs gs h]
  | .or fs, .or gs, h => by
    simp only [serialize, Json.obj.injEq, List.cons.injEq, Prod.mk.injEq, Json.arr.injEq, true_and,
      and_true] at h
    rw [serializeAll_inj fs gs h]
  | .field .., .and _, h | .field .., .or _, h | .and _, .field .., h | .and _, .or _, h
  | .or _, .field .., h | .or _, .and _, h => by
    simp [serialize] at h

theorem Filter.serializeAll_inj : ∀ fs gs : List Filter,
    serializeAll fs = serializeAll gs → fs = gs
  | [], [], _ => rfl
  | f :: fs, g :: gs, h => by
    obtain ⟨hhead, htail⟩ := List.cons.inj h
    rw [serialize_inj f g hhead, serializeAll_inj fs gs htail]
  | [], _ :: _, h | _ :: _, [], h => nomatch h

end

/-! ### Members that are left out -/

section Optional

variable {α : Type} (k name : String) (encode : α → Json)

theorem find?_optional (a : Option α) :
    Keyed.find? k (optional name encode a) = if k = name then a.map encode else none := by
  cases a <;> simp [optional, Keyed.find?_cons]

/-- What stands for a list that is left out where it is empty. -/
def shown (as : List α) : Option Json := if as = [] then none else some (.arr (as.map encode))

theorem find?_nonempty (as : List α) :
    Keyed.find? k (nonempty name encode as) = if k = name then shown encode as else none := by
  cases as <;> simp [nonempty, shown, Keyed.find?_cons]

theorem shown_inj {encode : α → Json} (hinj : ∀ a b, encode a = encode b → a = b)
    {as bs : List α} (h : shown encode as = shown encode bs) : as = bs := by
  cases as with
  | nil =>
    cases bs with
    | nil => rfl
    | cons b bs => cases h
  | cons a as =>
    cases bs with
    | nil => cases h
    | cons b bs => exact (List.map_inj_right hinj).1 (Json.arr.inj (Option.some.inj h))

end Optional

/-! ### Queries -/

namespace Query

variable {q q' : Query}

theorem serialize_inj (h : q.serialize = q'.serialize) : q = q' := by
  have hmember (k : String) := congrArg (Keyed.find? k) (Json.obj.inj h)
  simp only [Keyed.find?_append, Keyed.find?_cons, find?_optional, find?_nonempty] at hmember
  have hcollection : q.collection = q'.collection := by simpa using hmember "collection"
  have hfilter : q.filter.map Filter.serialize = q'.filter.map Filter.serialize := by
    simpa using hmember "filter"
  have horder : shown OrderBy.serialize q.order = shown OrderBy.serialize q'.order := by
    simpa using hmember "orderBy"
  have hselect : shown Json.str q.select = shown Json.str q'.select := by
    simpa using hmember "select"
  have hoffset : q.offset.map Json.ofUInt64 = q'.offset.map Json.ofUInt64 := by
    simpa using hmember "offset"
  have hlimit : q.limit.map Json.ofUInt64 = q'.limit.map Json.ofUInt64 := by
    simpa using hmember "limit"
  have hcache : q.cache.map Duration.serialize = q'.cache.map Duration.serialize := by
    simpa using hmember "cache"
  have hnumber : ∀ m n : UInt64, Json.ofUInt64 m = Json.ofUInt64 n → m = n :=
    fun _ _ => Json.ofUInt64_inj
  obtain ⟨collection, filter, order, select, offset, limit, cache⟩ := q
  cases hcollection
  cases (Option.map_inj_right Filter.serialize_inj).1 hfilter
  cases shown_inj (fun _ _ => OrderBy.serialize_inj) horder
  cases shown_inj (fun _ _ => Json.str.inj) hselect
  cases (Option.map_inj_right hnumber).1 hoffset
  cases (Option.map_inj_right hnumber).1 hlimit
  cases (Option.map_inj_right fun _ _ => Duration.serialize_inj).1 hcache
  rfl

/-- Two queries have the same text exactly if they are the same query. -/
theorem compact_eq_iff : q.serialize.compact = q'.serialize.compact ↔ q = q' :=
  Json.compact_injective.eq_iff.trans ⟨serialize_inj, congrArg _⟩

end Query

instance : DecidableEq Query := fun q q' =>
  decidable_of_iff (q.serialize = q'.serialize) ⟨Query.serialize_inj, congrArg _⟩

end Document

end RowQuery
