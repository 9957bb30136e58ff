import RowQuery.Proofs.Json.Text

/-!
# Documents of whole numbers are read back

A document without floats is read from its text as it was, with the members of its objects in the
order of their names (`json?_printed`), if a reader goes as deep as the document.
-/

namespace RowQuery

namespace Json

mutual

/-- How deep arrays and objects are nested. -/
def depth : Json → Nat
  | .arr items => depthItems items + 1
  | .obj members => depthMembers members + 1
  | .null | .bool _ | .num _ | .str _ => 0

def depthItems : List Json → Nat
  | [] => 0
  | j :: js => max j.depth (depthItems js)

def depthMembers : List (String × Json) → Nat
  | [] => 0
  | (_, j) :: ms => max j.depth (depthMembers ms)

end

mutual

/-- Whether all numbers of a document are whole. -/
def isWhole : Json → Bool
  | .num (.float ..) => false
  | .arr items => areWhole items
  | .obj members => membersAreWhole members
  | .null | .bool _ | .num (.int ..) | .str _ => true

def areWhole : List Json → Bool
  | [] => true
  | j :: js => j.isWhole && areWhole js

def membersAreWhole : List (String × Json) → Bool
  | [] => true
  | (_, j) :: ms => j.isWhole && membersAreWhole ms

end

end Json

namespace Source

mutual

theorem json?_printed : (j : Json) → {depth : Nat} → j.isWhole = true → j.depth ≤ depth →
    j.printed.json? depth = some j.byName
  | .null, _, _, _ | .bool _, _, _, _ => rfl
  | .num (.int n h), _, _, _ => by
    rw [Json.printed, json?]
    exact congrArg (Option.map _) (Numeral.number?_ofInt h)
  | .str s, _, _, _ => by
    rw [Json.printed, json?, StringUnit.text?_quoted]
    rfl
  | .arr items, 0, _, hdepth => absurd hdepth (Nat.not_succ_le_zero _)
  | .arr items, depth + 1, hwhole, hdepth => by
    rw [Json.isWhole] at hwhole
    rw [Json.printed, json?, jsonItems?_printed items hwhole (Nat.le_of_succ_le_succ hdepth)]
    rfl
  | .obj members, 0, _, hdepth => absurd hdepth (Nat.not_succ_le_zero _)
  | .obj members, depth + 1, hwhole, hdepth => by
    rw [Json.isWhole] at hwhole
    rw [Json.printed, json?, jsonMembers?_printed members hwhole (Nat.le_of_succ_le_succ hdepth)]
    rfl

theorem jsonItems?_printed : (js : List Json) → {depth : Nat} → Json.areWhole js = true →
    Json.depthItems js ≤ depth →
    jsonItems? depth (Json.printedItems js) = some (Json.itemsByName js)
  | [], _, _, _ => rfl
  | j :: js, depth, hwhole, hdepth => by
    rw [Json.areWhole, Bool.and_eq_true] at hwhole
    rw [Json.depthItems, Nat.max_le] at hdepth
    rw [Json.printedItems, jsonItems?, json?_printed j hwhole.1 hdepth.1,
      jsonItems?_printed js hwhole.2 hdepth.2]
    rfl

theorem jsonMembers?_printed : (ms : List (String × Json)) → {depth : Nat} →
    Json.membersAreWhole ms = true → Json.depthMembers ms ≤ depth →
    jsonMembers? depth (Json.printedMembers ms) = some (Json.membersByName ms)
  | [], _, _, _ => rfl
  | (k, j) :: ms, depth, hwhole, hdepth => by
    rw [Json.membersAreWhole, Bool.and_eq_true] at hwhole
    rw [Json.depthMembers, Nat.max_le] at hdepth
    rw [Json.printedMembers, jsonMembers?, json?_printed j hwhole.1 hdepth.1,
      jsonMembers?_printed ms hwhole.2 hdepth.2, StringUnit.text?_quoted]
    rfl

end

end Source

/-- A document of whole numbers is read from its text. -/
theorem Json.parse?_compact {j : Json} (hwhole : j.isWhole = true)
    (hdepth : j.depth ≤ Source.maxDepth) : Json.parse? j.compact = some j.byName := by
  rw [parse?, Source.readText?_compact]
  exact Source.json?_printed j hwhole hdepth

end RowQuery
