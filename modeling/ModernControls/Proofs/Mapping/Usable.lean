import ModernControls.Conversion.Engine
import ModernControls.Proofs.Mapping.Defaults

/-!
# Usable configurations

A configuration that was read has passed its checks, and what is laid over it has passed them too,
so whatever an engine has been asked for, the properties of every control are mapped with the
configuration that it holds, but for one case: a default that is added may hold an integer that is
too long to be noted.

**Key paths (`IsKeyPath`).** A target that is not blank and has no empty key between its points.

**Usable configurations (`Usable`).** Types that are not blank, targets that are key paths, and
defaults that are property values, however deeply they are nested.

**Short additions (`AddsShort`).** No default that is added to the properties of a control holds a
long integer. So it is if no default does (`HasShortDefaults`).

Results:
- `usable_ofJson`: what is read is usable;
- `usable_merged`: so is a usable configuration over another;
- `mapProperties_cases`: when properties are mapped with a usable configuration, and what is said if
  they are not;
- `mapProperties_givesIff`: what is so of every result, with when there is one;
- `usable_reachable`: every configuration that an engine comes to hold is usable.
-/
namespace ModernControls

namespace Mapping

variable {α β : Type}

/-- Whether a target is a key, or keys with points between them. -/
def IsKeyPath (target : Text) : Prop :=
  target.isAllBlank = false ∧ ∀ key ∈ target.split '.', key ≠ []

/-- Whether the properties of controls can be mapped with a configuration. -/
structure Usable (m : Mapping) : Prop where
  types : ∀ entry ∈ m.controlTypes, entry.1.isAllBlank = false ∧ entry.2.isAllBlank = false
  targets : ∀ table ∈ m.properties, ∀ entry ∈ table.2, ∀ target ∈ entry.2, IsKeyPath target
  defaults : ∀ table ∈ m.defaults, ∀ entry ∈ table.2,
    ∃ value, Property.ofPlain entry.2.toPlain = .ok value

/-! ## Checks -/

theorem both_ok {x : Checked α} {y : Checked β} {r : α × β} (h : both x y = .ok r) :
    x = .ok r.1 ∧ y = .ok r.2 := by
  cases x with
  | error ps => cases y <;> cases h
  | ok a => cases y with
    | error ps => cases h
    | ok b => cases h; exact ⟨rfl, rfl⟩

/-- A part that is checked twice, first for its shape. -/
theorem withoutFault_ok {field : Text} {fault? : α → Option EntryFault} {shaped : Checked α} {a : α}
    (h : (shaped >>= withoutFault field fault?) = .ok a) : shaped = .ok a ∧ fault? a = none := by
  cases shaped with
  | error ps => cases h
  | ok part =>
    simp only [bind, Except.bind, withoutFault] at h
    split at h
    · next hnone => cases h; exact ⟨rfl, hnone⟩
    · cases h

theorem typesFault?_eq_none {types : Table Text} : typesFault? types = none
    ↔ ∀ entry ∈ types, entry.1.isAllBlank = false ∧ entry.2.isAllBlank = false := by
  simp only [typesFault?, ite_eq_left_iff, reduceCtorEq, imp_false, Decidable.not_not,
    List.isEmpty_iff, List.filter_eq_nil_iff, Bool.or_eq_true, not_or, Bool.not_eq_true]

theorem firstFault?_eq_none {fault? : Text → Text → α → Option EntryFault}
    {tables : Table (Table α)} : firstFault? fault? tables = none
      ↔ ∀ table ∈ tables, ∀ entry ∈ table.2, fault? table.1 entry.1 entry.2 = none := by
  simp only [firstFault?, List.findSome?_eq_none_iff]

theorem targetFault?_eq_none {type key : Text} {target : Option Text} :
    targetFault? type key target = none ↔ ∀ t ∈ target, IsKeyPath t := by
  cases target with
  | none => simp [targetFault?]
  | some t =>
    have hparts : (t.split '.').any List.isEmpty = false ↔ ∀ key ∈ t.split '.', key ≠ [] := by
      simp
    simp only [targetFault?, Option.mem_def, Option.some.injEq, forall_eq', IsKeyPath, ← hparts]
    cases t.isAllBlank <;> cases (t.split '.').any List.isEmpty <;> simp

theorem defaultFault?_eq_none {type key : Text} {value : Json} :
    defaultFault? type key value = none
      ↔ ∃ property, Property.ofPlain value.toPlain = .ok property := by
  unfold defaultFault?
  cases Property.ofPlain value.toPlain <;> simp

theorem checkTypes_ok {fields : Table Json} {types : Table Text}
    (h : checkTypes fields = .ok types) :
    ∀ entry ∈ types, entry.1.isAllBlank = false ∧ entry.2.isAllBlank = false := by
  unfold checkTypes at h
  dsimp only at h
  split at h
  · exact typesFault?_eq_none.1 (withoutFault_ok h).2
  · split at h
    · exact typesFault?_eq_none.1 (withoutFault_ok h).2
    · cases h

theorem checkProperties_ok {fields : Table Json} {tables : Table (Table (Option Text))}
    (h : checkProperties fields = .ok tables) :
    ∀ table ∈ tables, ∀ entry ∈ table.2, ∀ target ∈ entry.2, IsKeyPath target := by
  unfold checkProperties at h
  split at h
  · cases h
  · exact fun table ht entry he =>
      targetFault?_eq_none.1 (firstFault?_eq_none.1 (withoutFault_ok h).2 table ht entry he)

theorem checkDefaults_ok {fields : Table Json} {tables : Table (Table Json)}
    (h : checkDefaults fields = .ok tables) :
    ∀ table ∈ tables, ∀ entry ∈ table.2,
      ∃ value, Property.ofPlain entry.2.toPlain = .ok value := by
  unfold checkDefaults at h
  split at h
  · cases h
    exact fun table ht => absurd ht List.not_mem_nil
  · exact fun table ht entry he =>
      defaultFault?_eq_none.1 (firstFault?_eq_none.1 (withoutFault_ok h).2 table ht entry he)

/-- What is read is usable. -/
theorem usable_ofJson {value : Json} {m : Mapping} (h : ofJson value = .ok m) : m.Usable := by
  cases value with
  | object fields =>
    simp only [ofJson] at h
    split at h
    · next types properties defaults hall =>
      cases h
      obtain ⟨htypes, hrest⟩ := both_ok hall
      obtain ⟨hproperties, hrest⟩ := both_ok hrest
      exact ⟨checkTypes_ok htypes, checkProperties_ok hproperties,
        checkDefaults_ok (both_ok hrest).1⟩
    · cases h
  | _ => cases h

theorem usable_ofText {text : Text} {m : Mapping} (h : ofText text = .ok m) : m.Usable := by
  unfold ofText at h
  split at h
  · exact usable_ofJson h
  · cases h
  · cases h

theorem usable_builtIn : builtIn.Usable where
  types := by decide +kernel
  targets := by
    unfold IsKeyPath
    decide +kernel
  defaults table ht entry he := by
    have hnone : firstFault? defaultFault? builtInDefaults = none := by decide +kernel
    exact defaultFault?_eq_none.1 (firstFault?_eq_none.1 hnone table ht entry he)

/-! ## Layers -/

/-- What holds of all entries of two layers holds of all entries of the one over the other. -/
theorem forall_mem_layTables {p : Text × α → Prop} {lower upper : Table (Table α)}
    (hl : ∀ table ∈ lower, ∀ entry ∈ table.2, p entry)
    (hu : ∀ table ∈ upper, ∀ entry ∈ table.2, p entry) :
    ∀ table ∈ layTables lower upper, ∀ entry ∈ table.2, p entry := by
  induction upper generalizing lower with
  | nil => exact hl
  | cons first rest ih =>
    refine ih (fun table ht entry he => ?_) fun table ht => hu table (List.mem_cons_of_mem _ ht)
    rcases Table.of_mem_insert ht with ht | rfl
    · exact hl table ht entry he
    · rcases Table.of_mem_insertAll he with he | he
      · cases hg : Table.get? lower first.1 with
        | none => rw [hg] at he; cases he
        | some below =>
          rw [hg] at he
          exact hl _ (Table.mem_of_get? hg) entry he
      · exact hu first List.mem_cons_self entry he

/-- A usable configuration over another is usable. -/
theorem usable_merged {lower upper : Mapping} (hl : lower.Usable) (hu : upper.Usable) :
    (lower.merged upper).Usable where
  types entry he := (Table.of_mem_insertAll he).elim (hl.types entry) (hu.types entry)
  targets := forall_mem_layTables (p := fun e => ∀ target ∈ e.2, IsKeyPath target)
    hl.targets hu.targets
  defaults := forall_mem_layTables
    (p := fun e : Text × Json => ∃ value, Property.ofPlain e.2.toPlain = .ok value)
    hl.defaults hu.defaults

/-! ## Mapping properties -/

theorem mem_of_typedLookup {tables : Table α} {modernType : Text} {found : α}
    (h : typedLookup tables modernType = some found) : ∃ key, (key, found) ∈ tables := by
  unfold typedLookup at h
  split at h
  · next hg => exact ⟨_, Table.mem_of_get? (hg.trans h)⟩
  · exact ⟨_, Table.mem_of_get? h⟩

/-- Defaults for a type are those of a table. -/
theorem mem_of_defaultsFor {m : Mapping} {modernType : Text} {entry : Text × Json}
    (h : entry ∈ m.defaultsFor modernType) : ∃ table ∈ m.defaults, entry ∈ table.2 := by
  unfold defaultsFor at h
  cases hg : typedLookup m.defaults modernType with
  | none => rw [hg] at h; cases h
  | some table =>
    rw [hg] at h
    obtain ⟨key, hmem⟩ := mem_of_typedLookup hg
    exact ⟨(key, table), hmem, h⟩

/-- Whether no default that is added to the properties of a control holds a long integer. -/
def AddsShort (m : Mapping) (classic : Properties) (modernType : Text) : Prop :=
  MissingAreShort (placeAll (m.propertyTable modernType) [] classic).1 (m.defaultsFor modernType)

/-- Whether the defaults of a configuration hold no long integers. -/
def HasShortDefaults (m : Mapping) : Prop :=
  ∀ table ∈ m.defaults, ∀ entry ∈ table.2, entry.2.isShort = true

theorem HasShortDefaults.addsShort {m : Mapping} (h : m.HasShortDefaults) (classic : Properties)
    (modernType : Text) : m.AddsShort classic modernType := fun _ _ hg _ => by
  obtain ⟨table, ht, he⟩ := mem_of_defaultsFor (Table.mem_of_get? hg)
  exact h table ht _ he

theorem hasShortDefaults_builtIn : builtIn.HasShortDefaults := by
  unfold HasShortDefaults
  decide +kernel

theorem addsShort_builtIn (classic : Properties) (modernType : Text) :
    builtIn.AddsShort classic modernType := hasShortDefaults_builtIn.addsShort classic modernType

/-- With a usable configuration properties are mapped, unless a default that is added holds a long
integer. -/
theorem mapProperties_cases {m : Mapping} (h : m.Usable) (classic : Properties)
    (modernType : Text) :
    (m.AddsShort classic modernType ∧ ∃ r, m.mapProperties classic modernType = .ok r)
      ∨ (¬m.AddsShort classic modernType
        ∧ m.mapProperties classic modernType = .error (.broken .longInteger)) := by
  have hdefaults : ∀ entry ∈ m.defaultsFor modernType,
      ∃ value, Property.ofPlain entry.2.toPlain = .ok value := fun entry he => by
    obtain ⟨table, ht, he⟩ := mem_of_defaultsFor he
    exact h.defaults table ht entry he
  rcases addDefaults_cases hdefaults (placeAll (m.propertyTable modernType) [] classic).1
    with ⟨hshort, r, hr⟩ | ⟨hlong, hr⟩
  · refine .inl ⟨hshort, (r.1, (placeAll (m.propertyTable modernType) [] classic).2 ++ r.2), ?_⟩
    simp only [mapProperties, hr, bind, Except.bind]
  · refine .inr ⟨hlong, ?_⟩
    simp only [mapProperties, hr, bind, Except.bind]

/-- What is so of all mapped properties, with when there are any. -/
theorem mapProperties_givesIff {m : Mapping} (h : m.Usable) {classic : Properties}
    {modernType : Text} {good : Properties × List Note → Prop}
    (hgood : ∀ r, m.mapProperties classic modernType = .ok r → good r) :
    GivesIff (m.AddsShort classic modernType) (m.mapProperties classic modernType) good := by
  rcases mapProperties_cases h classic modernType with ⟨hshort, r, hr⟩ | ⟨hlong, hr⟩
  · exact .inl ⟨hshort, r, hr, hgood r hr⟩
  · exact .inr ⟨hlong, _, hr⟩

end Mapping

namespace Engine

open Mapping

variable {e : Engine}

/-! ## Engines -/

theorem usable_ofJson {given : Option Json} (h : ofJson given = .ok e) : e.mapping.Usable := by
  cases given with
  | none => cases h; exact usable_builtIn
  | some value =>
    simp only [ofJson] at h
    cases hm : Mapping.ofJson value with
    | error error => rw [hm] at h; cases h
    | ok m => rw [hm] at h; cases h; exact Mapping.usable_ofJson hm

/-- An engine that takes an import keeps a usable configuration if the import is one. -/
theorem usable_adopt (he : e.mapping.Usable) {merge : Bool} {imported : Except Error Mapping}
    (h : ∀ m, imported = .ok m → m.Usable) : (e.adopt merge imported).1.mapping.Usable := by
  cases imported with
  | error error => exact he
  | ok m => cases merge with
    | true => exact usable_merged he (h m rfl)
    | false => exact h m rfl

theorem usable_mappingOfData {data : Json} {m : Mapping} (h : mappingOfData data = .ok m) :
    m.Usable := by
  unfold mappingOfData at h
  split at h
  · exact usable_ofText h
  · exact Mapping.usable_ofJson h

theorem usable_answer (he : e.mapping.Usable) (request : Request) :
    (e.answer request).1.mapping.Usable := by
  cases request with
  | convert text => exact mapping_convert e text ▸ he
  | showLog => exact he
  | «export» => exact he
  | importText text merge => exact usable_adopt he fun m => usable_ofText
  | importData data merge => exact usable_adopt he fun m => usable_mappingOfData
  | assign data => exact usable_adopt he fun m => Mapping.usable_ofJson

theorem usable_answerAll (he : e.mapping.Usable) (requests : List Request) :
    (e.answerAll requests).1.mapping.Usable := by
  induction requests generalizing e with
  | nil => exact he
  | cons request rest ih => exact ih (usable_answer he request)

/-- Whatever an engine was made of and has been asked for, accepted or refused, its configuration is
usable. The properties of every control are mapped with it to every modern type, just if no default
that is added holds an integer too long to be noted; otherwise it is this that breaks the mapping
off. -/
theorem usable_reachable {given : Option Json} (h : ofJson given = .ok e)
    (requests : List Request) :
    (e.answerAll requests).1.mapping.Usable
      ∧ ∀ classic modernType,
        ((∃ mapped, (e.answerAll requests).1.mapping.mapProperties classic modernType = .ok mapped)
          ↔ (e.answerAll requests).1.mapping.AddsShort classic modernType)
        ∧ ∀ error, (e.answerAll requests).1.mapping.mapProperties classic modernType = .error error →
          error = .broken .longInteger := by
  have husable := usable_answerAll (usable_ofJson h) requests
  refine ⟨husable, fun classic modernType => ?_⟩
  rcases mapProperties_cases husable classic modernType with ⟨hshort, r, hr⟩ | ⟨hlong, hr⟩
  · refine ⟨iff_of_true ⟨r, hr⟩ hshort, fun error he => ?_⟩
    rw [hr] at he
    cases he
  · refine ⟨iff_of_false (fun ⟨r, he⟩ => ?_) hlong, fun error he => ?_⟩
    · rw [hr] at he
      cases he
    · rw [hr] at he
      exact (Except.error.inj he).symm

/-- A configuration whose properties are the common table of all types. -/
def flatMapping : Json :=
  .object
    [(controlTypesName, .object [("Label".toList, .string "Text@1".toList)]),
      (propertiesName,
        .object [("Color".toList, .string "Font.Color".toList), ("Size".toList, .null)])]

/-- A configuration with a table for one type, whose default for a property is a given one. -/
def typedMapping (default : Json) : Json :=
  .object
    [(controlTypesName, .object []), (propertiesName, .object [("Text".toList, .object [])]),
      (defaultsName, .object [("Text".toList, .object [("Font".toList, default)])])]

/-- The engine with a configuration of that kind. -/
def typedEngine (default : Json) : Engine where
  mapping := ⟨[], [("Text".toList, [])], [("Text".toList, [("Font".toList, default)])]⟩
  lastLog := []

theorem ofJson_typedMapping (n : Int) :
    ofJson (some (typedMapping (.int n))) = .ok (typedEngine (.int n)) := rfl

theorem mapProperties_typedEngine {n : Int} (h : isLongInteger n = true) :
    (typedEngine (.int n)).mapping.mapProperties [] "Text".toList
      = .error (.broken .longInteger) := by
  have hvalue : Property.ofJson (.int n) = .ok (.int n) := rfl
  have htext : (Property.int n : Property).asText = none := if_pos h
  have hdefault : defaultValue "Font".toList (.int n) = .error (.broken .longInteger) := by
    simp only [defaultValue, hvalue, htext]
  show ((defaultValue "Font".toList (.int n) >>= _) >>= _) = _
  rw [hdefault]
  rfl

/-- A default that is an integer of too many digits is taken, and breaks off every mapping that adds
it. -/
theorem not_mapped_longDefault :
    ofJson (some (typedMapping (.int (Nat.pow 10 mostDigits))))
        = .ok (typedEngine (.int (Nat.pow 10 mostDigits)))
      ∧ (typedEngine (.int (Nat.pow 10 mostDigits))).mapping.mapProperties [] "Text".toList
        = .error (.broken .longInteger) :=
  ⟨ofJson_typedMapping _, mapProperties_typedEngine (isLongInteger_of_le (Nat.le_refl _))⟩

/-- The engine with the common table. -/
def flatEngine : Engine where
  mapping :=
    ⟨[("Label".toList, "Text@1".toList)],
      [(commonKey, [("Color".toList, some "Font.Color".toList), ("Size".toList, none)])], []⟩
  lastLog := []

/-- A default that is an object is laid over what is there; one with a list in it is refused. -/
def layerRequests : List Request :=
  [.importText ((typedMapping (.object [("Size".toList, .int 12)])).renderAt none 0) true,
    .assign (typedMapping (.object [("Size".toList, .array [])]))]

theorem usable_layered : ofJson (some flatMapping) = .ok flatEngine
    ∧ (flatEngine.answerAll layerRequests).1.mapping.Usable
    ∧ ∀ classic modernType,
      ((∃ mapped, (flatEngine.answerAll layerRequests).1.mapping.mapProperties classic modernType
          = .ok mapped)
        ↔ (flatEngine.answerAll layerRequests).1.mapping.AddsShort classic modernType)
      ∧ ∀ error, (flatEngine.answerAll layerRequests).1.mapping.mapProperties classic modernType
          = .error error → error = .broken .longInteger := by
  have h : ofJson (some flatMapping) = .ok flatEngine := rfl
  exact ⟨h, usable_reachable h layerRequests⟩

end Engine

end ModernControls
