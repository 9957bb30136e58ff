import Mathlib.Data.List.Induction
import RowQuery.Declaration

/-!
# What a declaration declares

Options come in any order and any number, on the struct and on its fields. Read as a whole, a name
has the last value that it is given, and a mark is there or not. A declaration is refused exactly
if it is faulty, and else it declares its fields in their order, with what is not said filled in
from the names (`shape_laws`).
-/

namespace RowQuery

/-! ### Options -/

namespace Annotation

/-- The text that the item gives to a name. -/
def value? (key : String) : Annotation → Option String
  | assign name value => if name = key then value else none
  | flag _ => none
  | call _ => none

/-- The item gives a value to the name. -/
def Assigns (key : String) : Annotation → Prop
  | assign name _ => name = key
  | flag _ => False
  | call _ => False

/-- A value that the item gives is a string literal. -/
def HasText : Annotation → Prop
  | assign _ none => False
  | _ => True

def IsEntityOption (a : Annotation) : Prop := a.name ∈ ["name", "table", "primary_key"]

def IsFieldOption : Annotation → Prop
  | flag name => name ∈ ["skip", "array", "one", "many"]
  | assign name _ => name ∈ ["relation", "local", "foreign"]
  | call _ => False

instance (key : String) : DecidablePred (Assigns key) := by
  intro a
  cases a <;> unfold Assigns <;> infer_instance

instance : DecidablePred HasText := by
  intro a
  unfold HasText
  split <;> infer_instance

instance : DecidablePred IsEntityOption := by
  intro a
  unfold IsEntityOption
  infer_instance

instance : DecidablePred IsFieldOption := by
  intro a
  cases a <;> unfold IsFieldOption <;> infer_instance

end Annotation

open Annotation

section Options

variable {as : List Annotation} {a : Annotation} {key name : String}

/-- The last text that is given to a name. -/
def lastValue? (key : String) (as : List Annotation) : Option String :=
  (as.filterMap (value? key)).getLast?

/-- Some item gives a value to the name. -/
def Gives (key : String) (as : List Annotation) : Prop := ∃ a ∈ as, a.Assigns key

instance : Decidable (Gives key as) := by unfold Gives; infer_instance

theorem lastValue?_concat :
    lastValue? key (as ++ [a]) = (a.value? key).or (lastValue? key as) := by
  rw [lastValue?, List.filterMap_append, List.getLast?_append]
  cases h : a.value? key <;> simp [h, lastValue?]

theorem value?_eq_none (ha : a.HasText) : a.value? key = none ↔ ¬a.Assigns key := by
  cases a with
  | flag name => simp [value?, Assigns]
  | call name => simp [value?, Assigns]
  | assign name value =>
    cases value with
    | none => exact absurd ha id
    | some text => simp [value?, Assigns]

/-- Where all values are texts, a name has one as soon as it is given a value. -/
theorem lastValue?_eq_none (has : ∀ a ∈ as, a.HasText) :
    lastValue? key as = none ↔ ¬Gives key as := by
  simp only [lastValue?, List.getLast?_eq_none_iff, List.filterMap_eq_nil_iff, Gives, not_exists,
    not_and]
  exact forall₂_congr fun a ha => value?_eq_none (has a ha)

theorem isSome_lastValue? (has : ∀ a ∈ as, a.HasText) :
    (lastValue? key as).isSome = true ↔ Gives key as := by
  rw [Option.isSome_iff_ne_none, Ne, lastValue?_eq_none has, not_not]

/-- Options that are added one after another to what was read before are read as a whole, if each
that comes behind others is added as the whole is read. -/
theorem foldlM_eq_ok_iff {α β ε : Type} {add : β → α → Except ε β} (read : List α → β)
    {P : α → Prop} {as : List α} {b : β}
    (hadd : ∀ before, ∀ a ∈ as, ∀ b, add (read before) a = .ok b ↔ P a ∧ b = read (before ++ [a])) :
    as.foldlM add (read []) = .ok b ↔ (∀ a ∈ as, P a) ∧ b = read as := by
  induction as using List.reverseRecOn generalizing b with
  | nil => simp [pure, Except.pure, eq_comm]
  | append_singleton as a ih =>
    have hprefix : ∀ before, ∀ a' ∈ as, ∀ b,
        add (read before) a' = .ok b ↔ P a' ∧ b = read (before ++ [a']) :=
      fun before a' ha' => hadd before a' (List.mem_append_left _ ha')
    rw [List.foldlM_append, bind_eq_ok]
    simp only [ih hprefix, List.foldlM_cons, List.foldlM_nil, bind_pure, List.forall_mem_append,
      List.forall_mem_singleton]
    constructor
    · rintro ⟨_, ⟨hall, rfl⟩, h⟩
      obtain ⟨ha, rfl⟩ := (hadd as a (by simp) b).1 h
      exact ⟨⟨hall, ha⟩, rfl⟩
    · rintro ⟨⟨hall, ha⟩, rfl⟩
      exact ⟨_, ⟨hall, rfl⟩, (hadd as a (by simp) _).2 ⟨ha, rfl⟩⟩

end Options

/-! ### Structs -/

namespace EntityOptions

/-- What all the options together say. -/
def ofAnnotations (as : List Annotation) : EntityOptions :=
  ⟨lastValue? "name" as, lastValue? "table" as, lastValue? "primary_key" as⟩

theorem add_ofAnnotations {before : List Annotation} {name : String} {value : Option String}
    {o : EntityOptions} :
    (ofAnnotations before).add (.assign name value) = .ok o ↔
      ((assign name value).IsEntityOption ∧ (assign name value).HasText) ∧
        o = ofAnnotations (before ++ [.assign name value]) := by
  unfold add
  split
  case h_4 hname htable hkey =>
    have hunknown : ¬(assign name value).IsEntityOption := by
      simp only [IsEntityOption, List.mem_cons, List.not_mem_nil, or_false]
      rintro (h | h | h)
      · exact hname h
      · exact htable h
      · exact hkey h
    exact ⟨nofun, fun h => absurd h.1.1 hunknown⟩
  all_goals
    rename_i hname
    obtain rfl : name = _ := hname
    cases value with
    | none => exact ⟨nofun, fun h => absurd h.1.2 id⟩
    | some text =>
      simp [ofAnnotations, lastValue?_concat, value?, text?, bind, Except.bind, pure, Except.pure,
        IsEntityOption, HasText, Annotation.name, eq_comm]

theorem foldlM_add_eq_ok {as : List Annotation} {o : EntityOptions}
    (has : ∀ a ∈ as, ∃ name value, a = .assign name value) :
    as.foldlM add none = .ok o ↔
      (∀ a ∈ as, a.IsEntityOption ∧ a.HasText) ∧ o = ofAnnotations as := by
  refine foldlM_eq_ok_iff ofAnnotations ?_
  intro before a ha o
  obtain ⟨name, value, rfl⟩ := has a ha
  exact add_ofAnnotations

end EntityOptions

/-! ### Fields -/

namespace FieldOptions

/-- What all the options together say. -/
def ofAnnotations (as : List Annotation) : FieldOptions where
  skip := .flag "skip" ∈ as
  array := .flag "array" ∈ as
  one := .flag "one" ∈ as
  many := .flag "many" ∈ as
  target := lastValue? "relation" as
  localKey := lastValue? "local" as
  foreignKey := lastValue? "foreign" as

theorem skip_ofAnnotations {as : List Annotation} :
    (ofAnnotations as).skip = true ↔ .flag "skip" ∈ as := decide_eq_true_iff

theorem add_ofAnnotations {before : List Annotation} {a : Annotation} {o : FieldOptions} :
    (ofAnnotations before).add a = .ok o ↔
      (a.IsFieldOption ∧ a.HasText) ∧ o = ofAnnotations (before ++ [a]) := by
  unfold add
  split
  case h_8 hskip harray hone hmany hrelation hlocal hforeign =>
    have hunknown : ¬a.IsFieldOption := by
      cases a with
      | flag name =>
        simp only [IsFieldOption, List.mem_cons, List.not_mem_nil, or_false]
        rintro (rfl | rfl | rfl | rfl)
        · exact hskip rfl
        · exact harray rfl
        · exact hone rfl
        · exact hmany rfl
      | assign name value =>
        simp only [IsFieldOption, List.mem_cons, List.not_mem_nil, or_false]
        rintro (rfl | rfl | rfl)
        · exact hrelation value rfl
        · exact hlocal value rfl
        · exact hforeign value rfl
      | call name => exact id
    exact ⟨nofun, fun h => absurd h.1.1 hunknown⟩
  case h_5 value | h_6 value | h_7 value =>
    cases value with
    | none => exact ⟨nofun, fun h => absurd h.1.2 id⟩
    | some text =>
      simp [ofAnnotations, lastValue?_concat, value?, text?, bind, Except.bind, pure, Except.pure,
        IsFieldOption, HasText, eq_comm]
  all_goals simp [ofAnnotations, lastValue?_concat, value?, IsFieldOption, HasText, eq_comm]

theorem foldlM_add_eq_ok {as : List Annotation} {o : FieldOptions} :
    as.foldlM add none = .ok o ↔
      (∀ a ∈ as, a.IsFieldOption ∧ a.HasText) ∧ o = ofAnnotations as :=
  foldlM_eq_ok_iff ofAnnotations fun _ _ _ _ => add_ofAnnotations

end FieldOptions

namespace FieldDeclaration

variable (f : FieldDeclaration)

/-- What is wrong with a field: an option that there is not, a value that is no text, and where the
field is not left out, a relation to one row and to many, or options of a relation without one. -/
def Faulty : Prop :=
  (∃ a ∈ f.annotations, ¬a.IsFieldOption) ∨ (∃ a ∈ f.annotations, ¬a.HasText) ∨
    .flag "skip" ∉ f.annotations ∧
      (.flag "one" ∈ f.annotations ∧ .flag "many" ∈ f.annotations ∨
        (.flag "one" ∈ f.annotations ∨ .flag "many" ∈ f.annotations ∨
          Gives "local" f.annotations ∨ Gives "foreign" f.annotations) ∧
        ¬Gives "relation" f.annotations)

instance : Decidable f.Faulty := by unfold Faulty; infer_instance

/-- The kind that the options of the field say, in an entity of this name and primary key. -/
def declaredKind (entity primaryKey : String) : FieldKind :=
  match lastValue? "relation" f.annotations with
  | some target =>
    if .flag "many" ∈ f.annotations then
      .relation ⟨target, .many, (lastValue? "local" f.annotations).getD primaryKey,
        (lastValue? "foreign" f.annotations).getD (Text.snakeCase entity ++ "_id")⟩
    else
      .relation ⟨target, .one, (lastValue? "local" f.annotations).getD (f.column ++ "_id"),
        (lastValue? "foreign" f.annotations).getD "id"⟩
  | none => if .flag "array" ∈ f.annotations then .array else .scalar

variable {f} {s : Shape}

theorem kind_ofAnnotations (htext : ∀ a ∈ f.annotations, a.HasText) {k : FieldKind} :
    (FieldOptions.ofAnnotations f.annotations).kind s f.column = .ok k ↔
      ¬(.flag "one" ∈ f.annotations ∧ .flag "many" ∈ f.annotations ∨
        (.flag "one" ∈ f.annotations ∨ .flag "many" ∈ f.annotations ∨
          Gives "local" f.annotations ∨ Gives "foreign" f.annotations) ∧
        ¬Gives "relation" f.annotations) ∧
      f.declaredKind s.name s.primaryKey = k := by
  have hrelation : lastValue? "relation" f.annotations = none ↔
      ¬Gives "relation" f.annotations := lastValue?_eq_none htext
  have hlocal : (lastValue? "local" f.annotations).isSome = true ↔
      Gives "local" f.annotations := isSome_lastValue? htext
  have hforeign : (lastValue? "foreign" f.annotations).isSome = true ↔
      Gives "foreign" f.annotations := isSome_lastValue? htext
  simp only [FieldOptions.kind, FieldOptions.ofAnnotations, declaredKind]
  cases htarget : lastValue? "relation" f.annotations with
  | some target =>
    have hgives : Gives "relation" f.annotations := by
      by_contra h
      cases htarget.symm.trans (hrelation.2 h)
    by_cases hmany : .flag "many" ∈ f.annotations
    · by_cases hone : .flag "one" ∈ f.annotations <;> simp [hmany, hone, hgives]
    · simp [hmany, hgives]
  | none =>
    have hgives : ¬Gives "relation" f.annotations := hrelation.1 htarget
    by_cases hmany : .flag "many" ∈ f.annotations
    · by_cases hone : .flag "one" ∈ f.annotations <;> simp [hmany, hone, hgives]
    · by_cases hone : .flag "one" ∈ f.annotations
      · simp [hone, hmany, hgives]
      · by_cases hkeys : Gives "local" f.annotations ∨ Gives "foreign" f.annotations
        · simp [hone, hmany, hgives, hlocal, hforeign, hkeys]
        · simp [hone, hmany, hlocal, hforeign, hkeys]

variable (f) in
/-- The field as the options declare it, unless they leave it out. -/
def declaredField? (entity primaryKey : String) : Option Field :=
  if .flag "skip" ∈ f.annotations then none
  else some ⟨f.column, f.declaredKind entity primaryKey⟩

theorem name_of_declaredField? {entity primaryKey : String} {field : Field}
    (h : f.declaredField? entity primaryKey = some field) : field.name = f.column := by
  unfold declaredField? at h
  split at h
  · cases h
  · cases h
    rfl

theorem field?_eq_ok {x : Option Field} :
    f.field? s = .ok x ↔ ¬f.Faulty ∧ f.declaredField? s.name s.primaryKey = x := by
  have hoptions : (∀ a ∈ f.annotations, a.IsFieldOption ∧ a.HasText) ↔
      ¬((∃ a ∈ f.annotations, ¬a.IsFieldOption) ∨ ∃ a ∈ f.annotations, ¬a.HasText) := by
    simp [forall_and]
  simp only [field?, bind_eq_ok, FieldOptions.foldlM_add_eq_ok]
  rw [Faulty, ← or_assoc, not_or, ← hoptions, declaredField?]
  constructor
  · rintro ⟨_, ⟨hall, rfl⟩, h⟩
    by_cases hskip : .flag "skip" ∈ f.annotations
    · rw [if_pos (FieldOptions.skip_ofAnnotations.2 hskip)] at h
      cases h
      exact ⟨⟨hall, fun hfault => hfault.1 hskip⟩, if_pos hskip⟩
    · rw [if_neg (mt FieldOptions.skip_ofAnnotations.1 hskip)] at h
      obtain ⟨k, hk, h⟩ := bind_eq_ok.1 h
      obtain ⟨hsound, rfl⟩ := (kind_ofAnnotations fun a ha => (hall a ha).2).1 hk
      cases h
      exact ⟨⟨hall, fun hfault => hsound hfault.2⟩, if_neg hskip⟩
  · rintro ⟨⟨hall, hsound⟩, rfl⟩
    refine ⟨_, ⟨hall, rfl⟩, ?_⟩
    by_cases hskip : .flag "skip" ∈ f.annotations
    · rw [if_pos (FieldOptions.skip_ofAnnotations.2 hskip), if_pos hskip]
      rfl
    · rw [if_neg (mt FieldOptions.skip_ofAnnotations.1 hskip), if_neg hskip]
      have hkind := (kind_ofAnnotations (s := s) fun a ha => (hall a ha).2).2
        ⟨fun h => hsound ⟨hskip, h⟩, rfl⟩
      exact bind_eq_ok.2 ⟨_, hkind, rfl⟩

end FieldDeclaration

/-! ### Entities -/

theorem Shape.withField_of_not_mem {s : Shape} {field : Field}
    (h : field.name ∉ s.fields.map Field.name) :
    s.withField field = { s with fields := s.fields ++ [field] } := by
  have hkept : s.fields.filter (·.name != field.name) = s.fields := by
    rw [List.filter_eq_self]
    intro other hother
    simp only [bne_iff_ne, ne_eq]
    rintro hname
    exact h (hname ▸ List.mem_map_of_mem hother)
  rw [withField, hkept]

namespace Declaration

/-- Fields of different names are added in their order, each as it is declared. -/
theorem addFields_eq_ok {fs : List FieldDeclaration} {s t : Shape}
    (hnames : (s.fields.map Field.name ++ fs.map FieldDeclaration.column).Nodup) :
    addFields fs s = .ok t ↔ (∀ f ∈ fs, ¬f.Faulty) ∧
      { s with fields := s.fields ++ fs.filterMap (·.declaredField? s.name s.primaryKey) } = t := by
  induction fs generalizing s with
  | nil => simp [addFields]
  | cons f fs ih =>
    simp only [addFields, bind_eq_ok, FieldDeclaration.field?_eq_ok, List.forall_mem_cons,
      List.filterMap_cons]
    cases hfield : f.declaredField? s.name s.primaryKey with
    | none =>
      have hrest : (s.fields.map Field.name ++ fs.map FieldDeclaration.column).Nodup :=
        hnames.sublist (List.Sublist.append_left (List.sublist_cons_self _ _) _)
      constructor
      · rintro ⟨_, ⟨hf, rfl⟩, h⟩
        obtain ⟨hfs, rfl⟩ := (ih hrest).1 h
        exact ⟨⟨hf, hfs⟩, rfl⟩
      · rintro ⟨⟨hf, hfs⟩, rfl⟩
        exact ⟨none, ⟨hf, rfl⟩, (ih hrest).2 ⟨hfs, rfl⟩⟩
    | some field =>
      have hname : field.name = f.column := FieldDeclaration.name_of_declaredField? hfield
      have hfresh : field.name ∉ s.fields.map Field.name := by
        intro hmem
        have hdisjoint := (List.nodup_append.1 hnames).2.2
        exact hdisjoint _ hmem _ (hname ▸ .head _) rfl
      have hadded := Shape.withField_of_not_mem hfresh
      have hrest : ((s.withField field).fields.map Field.name ++
          fs.map FieldDeclaration.column).Nodup := by
        rw [hadded]
        simpa [hname] using hnames
      have hadd := ih hrest
      rw [hadded] at hadd
      constructor
      · rintro ⟨_, ⟨hf, rfl⟩, h⟩
        simp only [hadded] at h
        obtain ⟨hfs, rfl⟩ := hadd.1 h
        exact ⟨⟨hf, hfs⟩, by simp⟩
      · rintro ⟨⟨hf, hfs⟩, ht⟩
        refine ⟨some field, ⟨hf, rfl⟩, ?_⟩
        simp only [hadded]
        exact hadd.2 ⟨hfs, by simpa using ht⟩

variable (d : Declaration)

/-- What is wrong with a declaration: an option that there is not, a value that is no text, and
what is wrong with its fields. -/
def Faulty : Prop :=
  (∃ a ∈ d.annotations, ¬a.IsEntityOption) ∨ (∃ a ∈ d.annotations, ¬a.HasText) ∨
    ∃ f ∈ d.fields, f.Faulty

instance : Decidable d.Faulty := by unfold Faulty; infer_instance

def declaredName : String := (lastValue? "name" d.annotations).getD d.ident

def declaredKey : String := (lastValue? "primary_key" d.annotations).getD "id"

/-- The shape that the options declare. -/
def declared : Shape where
  name := d.declaredName
  table := (lastValue? "table" d.annotations).getD (Text.snakeCase d.declaredName ++ "s")
  primaryKey := d.declaredKey
  fields := d.fields.filterMap (·.declaredField? d.declaredName d.declaredKey)

variable {d}

theorem header_eq_ok (hassign : ∀ a ∈ d.annotations, ∃ name value, a = .assign name value)
    {s : Shape} :
    d.header = .ok s ↔ (∀ a ∈ d.annotations, a.IsEntityOption ∧ a.HasText) ∧
      { d.declared with fields := [] } = s := by
  simp only [header, bind_eq_ok, EntityOptions.foldlM_add_eq_ok hassign]
  constructor
  · rintro ⟨_, ⟨hall, rfl⟩, h⟩
    cases h
    exact ⟨hall, rfl⟩
  · rintro ⟨hall, rfl⟩
    exact ⟨_, ⟨hall, rfl⟩, rfl⟩

theorem shape_eq_ok (hform : d.form = .struct)
    (hnames : (d.fields.map FieldDeclaration.column).Nodup)
    (hassign : ∀ a ∈ d.annotations, ∃ name value, a = .assign name value) {s : Shape} :
    d.shape = .ok s ↔ ¬d.Faulty ∧ d.declared = s := by
  have hsound : ¬d.Faulty ↔ (∀ a ∈ d.annotations, a.IsEntityOption ∧ a.HasText) ∧
      ∀ f ∈ d.fields, ¬f.Faulty := by
    simp [Faulty, forall_and, and_assoc]
  simp only [shape, ensureNamedFields, hform, bind_eq_ok, header_eq_ok hassign, hsound]
  constructor
  · rintro ⟨_, _, _, ⟨hall, rfl⟩, h⟩
    obtain ⟨hfields, rfl⟩ := (addFields_eq_ok (by simpa using hnames)).1 h
    exact ⟨⟨hall, hfields⟩, by simp [declared]⟩
  · rintro ⟨⟨hall, hfields⟩, rfl⟩
    refine ⟨(), trivial, _, ⟨hall, rfl⟩, (addFields_eq_ok (by simpa using hnames)).2 ?_⟩
    exact ⟨hfields, by simp [declared]⟩

/-- A struct whose fields differ in their names is refused exactly if something is wrong with it,
and else it declares the shape that its options say. -/
theorem shape_laws (hform : d.form = .struct)
    (hnames : (d.fields.map FieldDeclaration.column).Nodup)
    (hassign : ∀ a ∈ d.annotations, ∃ name value, a = .assign name value) :
    ((∃ e, d.shape = .error e) ↔ d.Faulty) ∧ (¬d.Faulty → d.shape = .ok d.declared) := by
  have hshape : ¬d.Faulty → d.shape = .ok d.declared := fun hsound =>
    (shape_eq_ok hform hnames hassign).2 ⟨hsound, rfl⟩
  refine ⟨⟨?_, ?_⟩, hshape⟩
  · rintro ⟨e, he⟩
    by_contra hsound
    cases he.symm.trans (hshape hsound)
  · intro hfaulty
    cases h : d.shape with
    | error e => exact ⟨e, rfl⟩
    | ok s => exact absurd hfaulty ((shape_eq_ok hform hnames hassign).1 h).1

/-- A person with a mentor, reviews and a note that is left out, whatever else is said of it. -/
theorem shape_laws_person :
    ∃ d : Declaration, d.form = .struct ∧ (d.fields.map FieldDeclaration.column).Nodup ∧
      (∀ a ∈ d.annotations, ∃ name value, a = .assign name value) ∧ ¬d.Faulty ∧
      (∀ e, d.shape ≠ .error e) ∧
      d.shape = .ok ⟨"Person", "people", "person_id",
        [⟨"type", .scalar⟩, ⟨"labels", .array⟩,
          ⟨"mentor", .relation ⟨"Author", .one, "mentor_id", "key"⟩⟩,
          ⟨"reviews", .relation ⟨"Post", .many, "person_id", "person_id"⟩⟩]⟩ := by
  let d : Declaration :=
    { ident := "Employee"
      form := .struct
      annotations := [.assign "table" (some "staff"), .assign "name" (some "Person"),
        .assign "primary_key" (some "person_id"), .assign "table" (some "people")]
      fields := [⟨"r#type", []⟩, ⟨"labels", [.flag "array"]⟩,
        ⟨"mentor", [.assign "foreign" (some "key"), .flag "one",
          .assign "relation" (some "Author")]⟩,
        ⟨"note", [.flag "many", .flag "skip", .flag "one"]⟩,
        ⟨"reviews", [.flag "many", .assign "relation" (some "Post")]⟩] }
  have hassign : ∀ a ∈ d.annotations, ∃ name value, a = .assign name value := by
    simp [d]
  have hnames : (d.fields.map FieldDeclaration.column).Nodup := by decide +kernel
  have hsound : ¬d.Faulty := by decide +kernel
  obtain ⟨hfaulty, hdeclared⟩ := shape_laws (d := d) rfl hnames hassign
  have hshape : d.declared = ⟨"Person", "people", "person_id",
      [⟨"type", .scalar⟩, ⟨"labels", .array⟩,
        ⟨"mentor", .relation ⟨"Author", .one, "mentor_id", "key"⟩⟩,
        ⟨"reviews", .relation ⟨"Post", .many, "person_id", "person_id"⟩⟩]⟩ := by
    decide +kernel
  exact ⟨d, rfl, hnames, hassign, hsound, fun e he => hsound (hfaulty.1 ⟨e, he⟩),
    hshape ▸ hdeclared hsound⟩

end Declaration

end RowQuery
