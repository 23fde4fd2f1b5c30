import ModernControls.Control.Property
import ModernControls.Json.Reader
import ModernControls.Mapping.Configuration
import ModernControls.Text.Shown

/-!
# Reading mapping configurations

A configuration is read from JSON. Its shape is checked first, then its entries: types are not
blank, targets are keys with points between them, and defaults are property values. All problems
are reported together.
-/

namespace ModernControls

open Yaml

mutual

/-- A JSON value as a plain value. -/
def Json.toPlain : Json → PlainValue
  | .null => .null
  | .bool b => .bool b
  | .int n => .int n
  | .float x => .float x
  | .string t => .text t .plain
  | .array items => .list (Json.toPlainItems items)
  | .object fields => .map (Json.toPlainFields fields)

/-- JSON items as plain values. -/
def Json.toPlainItems : List Json → List PlainValue
  | [] => []
  | item :: rest => Json.toPlain item :: Json.toPlainItems rest

/-- JSON fields as the entries of a plain map. -/
def Json.toPlainFields : List (Text × Json) → List (PlainValue × PlainValue)
  | [] => []
  | (key, value) :: rest => (.text key .plain, Json.toPlain value) :: Json.toPlainFields rest

end

/-- A JSON value as a property value. Its keys are texts already.
mirrors `PropertyValue.from_python` (model.lib 62-86) as used in mapping.lib 118 and 372 -/
def Property.ofJson (value : Json) : Except Unsupported Property :=
  (ofPlain value.toPlain).map named

namespace Mapping

/-- What a part of a configuration should be. -/
inductive Shape
  | present
  | absent
  | dictionary
  | string
  | boolean
  | integer
  | number
  deriving DecidableEq, Repr

/-- The words for a part of another shape. -/
def Shape.message : Shape → Text
  | .present => "Field required".toList
  | .absent => "Extra inputs are not permitted".toList
  | .dictionary => "Input should be a valid dictionary".toList
  | .string => "Input should be a valid string".toList
  | .boolean => "Input should be a valid boolean".toList
  | .integer => "Input should be a valid integer".toList
  | .number => "Input should be a valid number".toList

/-- What is wrong with the entries of a field.
mirrors the validators of `MappingConfiguration` (mapping.lib 81-121) -/
inductive EntryFault
  | blankTypes (keys : List Text)
  | blankTarget (type key : Text)
  | malformedTarget (type key target : Text)
  | unsupportedDefault (type key : Text) (value : Unsupported)
  deriving DecidableEq, Repr

/-- The words for a fault of an entry. -/
def EntryFault.message : EntryFault → Text
  | .blankTypes keys => "blank control type entries: ".toList ++ Text.shownList keys
  | .blankTarget type key => type ++ '.' :: key ++ ": target must be a key or null".toList
  | .malformedTarget type key target =>
    type ++ '.' :: key ++ ": malformed dotted target '".toList ++ target ++ ['\'']
  | .unsupportedDefault type key value => type ++ '.' :: key ++ ':' :: ' ' :: value.message

/-- A problem at a place. -/
inductive Problem
  | shape (place : List Text) (expected : Shape)
  | entry (field : Text) (fault : EntryFault)
  deriving DecidableEq, Repr

/-- The words for a problem with its place. -/
def Problem.text : Problem → Text
  | .shape place expected => Text.join ['.'] place ++ ':' :: ' ' :: expected.message
  | .entry field fault => field ++ ": Value error, ".toList ++ fault.message

/-- Why there is no configuration.
mirrors `InvalidMappingConfigurationError` (core.errors 64-73) -/
inductive Error
  | notObject
  | invalid (problems : List Problem)
  | notJson (report : Text)
  | unreadableFile (path reason : Text)
  | noHome
  | longInteger
  deriving DecidableEq, Repr

namespace Error

/-- What the reports on shapes begin with. -/
def invalidStart : Text := "Invalid mapping format: ".toList

/-- The problems one by one. -/
def details : Error → List Text
  | .invalid problems => problems.map Problem.text
  | _ => []

/-- The report on an error; there is none on a home directory that is not known and on an integer of
too many digits. -/
def report? : Error → Option Text
  | .notObject =>
    some (invalidStart ++ "expected an object with 'controlTypes' and 'properties'".toList)
  | .invalid problems => some (invalidStart ++ Text.join [';', ' '] (problems.map Problem.text))
  | .notJson report => some ("Mapping configuration is not valid JSON: ".toList ++ report)
  | .unreadableFile path reason =>
    some ("Cannot read mapping file ".toList ++ path ++ ':' :: ' ' :: reason)
  | .noHome => none
  | .longInteger => none

end Error

/-! ## Checks -/

/-- A part that was checked, or all problems with it. -/
abbrev Checked (α : Type) := Except (List Problem) α

/-- Two parts, or the problems with both. -/
def both {α β : Type} : Checked α → Checked β → Checked (α × β)
  | .ok a, .ok b => .ok (a, b)
  | .ok _, .error ps => .error ps
  | .error ps, .ok _ => .error ps
  | .error ps, .error qs => .error (ps ++ qs)

/-- A part that has not the right shape. -/
def misshapen {α : Type} (place : List Text) (expected : Shape) : Checked α :=
  .error [.shape place expected]

/-- Entries checked one by one. -/
def checkEntries {α : Type} (check : Text → Json → Checked α) :
    List (Text × Json) → Checked (Table α)
  | [] => .ok []
  | (key, value) :: rest =>
    (both (check key value) (checkEntries check rest)).map fun (v, r) => (key, v) :: r

/-- A table at a place. -/
def checkTable {α : Type} (place : List Text) (check : List Text → Json → Checked α) :
    Json → Checked (Table α)
  | .object fields => checkEntries (fun key value => check (place ++ [key]) value) fields
  | _ => misshapen place .dictionary

/-- A text at a place. -/
def checkText (place : List Text) : Json → Checked Text
  | .string t => .ok t
  | _ => misshapen place .string

/-- A target at a place. -/
def checkTarget (place : List Text) : Json → Checked (Option Text)
  | .null => .ok none
  | .string t => .ok (some t)
  | _ => misshapen place .string

/-- The shapes that a default may have, with their names in places. -/
def defaultShapes : List (Text × Shape) :=
  [("bool".toList, .boolean), ("int".toList, .integer), ("float".toList, .number),
    ("str".toList, .string), ("dict[str,any]".toList, .dictionary)]

/-- A default at a place: any JSON value but nothing and a list.
mirrors `DefaultValue` (mapping.lib 39) -/
def checkDefault (place : List Text) (value : Json) : Checked Json :=
  let refused : Checked Json :=
    .error (defaultShapes.map fun (name, shape) => .shape (place ++ [name]) shape)
  match value with
  | .null => refused
  | .array _ => refused
  | value => .ok value

/-- Whether a target is a key, or keys with points between them.
mirrors `MappingConfiguration._no_blank_targets` (mapping.lib 93-108) -/
def targetFault? (type key : Text) : Option Text → Option EntryFault
  | none => none
  | some target =>
    if target.isAllBlank then some (.blankTarget type key)
    else if (target.split '.').any List.isEmpty then some (.malformedTarget type key target)
    else none

/-- The fault of a default that is no property value.
mirrors `MappingConfiguration._defaults_are_property_values` (mapping.lib 110-121) -/
def defaultFault? (type key : Text) (value : Json) : Option EntryFault :=
  match Property.ofPlain value.toPlain with
  | .ok _ => none
  | .error u => some (.unsupportedDefault type key u)

/-- The first fault in tables. -/
def firstFault? {α : Type} (fault? : Text → Text → α → Option EntryFault)
    (tables : Table (Table α)) : Option EntryFault :=
  tables.findSome? fun (type, table) => table.findSome? fun (key, value) => fault? type key value

/-- The fault of types that are blank.
mirrors `MappingConfiguration._no_blank_types` (mapping.lib 81-91) -/
def typesFault? (types : Table Text) : Option EntryFault :=
  let blank := types.filter fun (key, target) => key.isAllBlank || target.isAllBlank
  if blank.isEmpty then none else some (.blankTypes (Table.keys blank))

/-- A part without faults, or the problem with it. -/
def withoutFault {α : Type} (field : Text) (fault? : α → Option EntryFault) (part : α) :
    Checked α :=
  match fault? part with
  | none => .ok part
  | some fault => .error [.entry field fault]

/-- The table of types in fields, under the name that it has there.
mirrors the field `control_types` (mapping.lib 56-60) -/
def checkTypes (fields : Table Json) : Checked (Table Text) :=
  let check (name : Text) (value : Json) : Checked (Table Text) := do
    withoutFault name typesFault? (← checkTable [name] checkText value)
  match fields.get? controlTypesName with
  | some value => check controlTypesName value
  | none =>
    match fields.get? controlTypesOtherName with
    | some value => check controlTypesOtherName value
    | none => misshapen [controlTypesName] .present

/-- Whether a value is a target. -/
def isTarget : Json → Bool
  | .null => true
  | .string _ => true
  | _ => false

/-- A table of targets alone is the common table.
mirrors `MappingConfiguration._flat_table_is_common` (mapping.lib 72-79) -/
def withCommonTable (value : Json) : Json :=
  match value with
  | .object [] => value
  | .object fields => if fields.all (isTarget ·.2) then .object [(commonKey, value)] else value
  | _ => value

/-- The tables of properties in fields.
mirrors the field `properties` (mapping.lib 61-64) -/
def checkProperties (fields : Table Json) : Checked (Table (Table (Option Text))) :=
  match fields.get? propertiesName with
  | none => misshapen [propertiesName] .present
  | some value => do
    let tables ← checkTable [propertiesName] (checkTable · checkTarget) (withCommonTable value)
    withoutFault propertiesName (firstFault? targetFault?) tables

/-- The tables of defaults in fields; there need not be any.
mirrors the field `defaults` (mapping.lib 65-68) -/
def checkDefaults (fields : Table Json) : Checked (Table (Table Json)) :=
  match fields.get? defaultsName with
  | none => .ok []
  | some value => do
    let tables ← checkTable [defaultsName] (checkTable · checkDefault) value
    withoutFault defaultsName (firstFault? defaultFault?) tables

/-- The names that fields may have. -/
def fieldNames (fields : Table Json) : List Text :=
  [if fields.hasKey controlTypesName then controlTypesName else controlTypesOtherName,
    propertiesName, defaultsName]

/-- There are no fields but those with the right names.
mirrors `extra="forbid"` (mapping.lib 70) -/
def checkNames (fields : Table Json) : Checked Unit :=
  let others := fields.filter fun (name, _) => !(fieldNames fields).contains name
  if others.isEmpty then .ok ()
  else .error (others.map fun (name, _) => .shape [name] .absent)

/-- A configuration from JSON.
mirrors `MappingConfiguration.from_data` (mapping.lib 127-150) -/
def ofJson : Json → Except Error Mapping
  | .object fields =>
    match both (checkTypes fields)
        (both (checkProperties fields) (both (checkDefaults fields) (checkNames fields))) with
    | .ok (types, properties, defaults, _) => .ok ⟨types, properties, defaults⟩
    | .error problems => .error (.invalid problems)
  | _ => .error .notObject

/-- A configuration from JSON text.
mirrors `MappingConfiguration.from_json` (mapping.lib 152-166) -/
def ofText (text : Text) : Except Error Mapping :=
  match Json.parse text with
  | .ok value => ofJson value
  | .error (.fault problem left) => .error (.notJson (Json.faultMessage text problem left))
  | .error .longInteger => .error .longInteger

end Mapping

end ModernControls
