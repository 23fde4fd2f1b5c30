import ModernControls.Control.Error
import ModernControls.Mapping.Path
import ModernControls.Mapping.Reading
import ModernControls.Note

/-!
# Mapping properties

The properties of a modern control from those of a classic one, in their order: renamed, moved into
objects, dropped or kept, as the table of the modern type says. Default properties fill what is
still missing.
-/

namespace ModernControls.Mapping

open ModernControls.Properties

/-- The note on a property that takes the place of an earlier value, if it does.
mirrors `_record_override` (mapping.lib 392-397) -/
def overrideNote (done : Properties) (key target : Text) : List Note :=
  if lookup done (Path.ofText target) = .empty then [] else [.overrides key target]

/-- A property with a target that leads into objects, put in its place.
mirrors `PropertyMapper.map_properties` (mapping.lib 355-363) -/
def placeAtPath (done : Properties) (key target : Text) (value : Property) :
    Properties × List Note :=
  match assign done value (Path.ofText target) with
  | some placed => (placed, overrideNote done key target ++ [.converted key target])
  | none => (done, overrideNote done key target ++ [.blocked key (Text.cut '.' target).1])

/-- A property with a target, put in its place.
mirrors `PropertyMapper.map_properties` (mapping.lib 352-367) -/
def placeAt (done : Properties) (key : Text) (value : Property) :
    Option Text → Properties × List Note
  | none => (done, [.dropped key])
  | some target =>
    if target.contains '.' then placeAtPath done key target value
    else (Table.insert done target value, overrideNote done key target ++ [.converted key target])

/-- A property put in its place.
mirrors `PropertyMapper.map_properties` (mapping.lib 341-367) -/
def place (table : Table (Option Text)) (done : Properties) (key : Text) (value : Property) :
    Properties × List Note :=
  match value with
  | .empty => (done, [.skipped key])
  | value =>
    match table.get? key with
    | none => (Table.insert done key value, overrideNote done key key ++ [.kept key])
    | some target => placeAt done key value target

/-- Properties put in their places one after the other.
mirrors `PropertyMapper.map_properties` (mapping.lib 340-367) -/
def placeAll (table : Table (Option Text)) (done : Properties) :
    List (Text × Property) → Properties × List Note
  | [] => (done, [])
  | (key, value) :: rest =>
    let placed := place table done key value
    let others := placeAll table placed.1 rest
    (others.1, placed.2 ++ others.2)

/-- A default as the value of a property, with the note that it is added.
mirrors `PropertyMapper.map_properties` (mapping.lib 372-374) -/
def defaultValue (key : Text) (default : Json) : Except Control.Error (Property × Note) :=
  match Property.ofJson default with
  | .error u => .error (.unsupportedValue u)
  | .ok value =>
    match value.asText with
    | some text => .ok (value, .defaulted key text)
    | none => .error (.broken .longInteger)

/-- Default properties where their keys are missing.
mirrors `PropertyMapper.map_properties` (mapping.lib 369-374) -/
def addDefaults (done : Properties) :
    List (Text × Json) → Except Control.Error (Properties × List Note)
  | [] => .ok (done, [])
  | (key, default) :: rest =>
    if Table.hasKey done key then addDefaults done rest
    else do
      let (value, note) ← defaultValue key default
      let (all, notes) ← addDefaults (Table.insert done key value) rest
      .ok (all, note :: notes)

/-- The properties of a modern control from those of a classic one.
mirrors `PropertyMapper.map_properties` (mapping.lib 316-376) -/
def mapProperties (m : Mapping) (classic : Properties) (modernType : Text) :
    Except Control.Error (Properties × List Note) := do
  let placed := placeAll (m.propertyTable modernType) [] classic
  let (all, notes) ← addDefaults placed.1 (m.defaultsFor modernType)
  .ok (all, placed.2 ++ notes)

end ModernControls.Mapping
