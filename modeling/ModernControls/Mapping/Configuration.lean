import ModernControls.Control.TypeToken
import ModernControls.Json.Writer
import ModernControls.Table

/-!
# Mapping configurations

Three tables say how classic controls become modern ones: which type becomes which, which property
of a modern type takes the place of a classic one, and which properties a modern type has by
default. Configurations can be laid over one another.

Results:
- `merged_empty`: laying the empty configuration over another changes nothing.
-/

namespace ModernControls

/-- The tables of a conversion. A target of none says that a property has no modern place; a target
with points leads into objects.
mirrors `MappingConfiguration` (mapping.lib 49-70) -/
structure Mapping where
  controlTypes : Table Text
  properties : Table (Table (Option Text))
  defaults : Table (Table Json)
  deriving DecidableEq, Inhabited

namespace Mapping

/-- The key of the table for modern types without one of their own.
mirrors `COMMON_TABLE_KEY` (mapping.tables 9) -/
def commonKey : Text := ['*']

/-- The configuration without entries. -/
def empty : Mapping := ⟨[], [], []⟩

/-! ## Layers -/

/-- A table of tables with one more table laid over it. -/
def layTable {α : Type} (tables : Table (Table α)) (entry : Text × Table α) : Table (Table α) :=
  tables.insert entry.1 (((tables.get? entry.1).getD []).insertAll entry.2)

/-- A table of tables laid over another, table by table.
mirrors `MappingConfiguration.merged` (mapping.lib 181-187) -/
def layTables {α : Type} (lower upper : Table (Table α)) : Table (Table α) :=
  upper.foldl layTable lower

/-- A configuration laid over another.
mirrors `MappingConfiguration.merged` (mapping.lib 175-195) -/
def merged (lower upper : Mapping) : Mapping where
  controlTypes := lower.controlTypes.insertAll upper.controlTypes
  properties := layTables lower.properties upper.properties
  defaults := layTables lower.defaults upper.defaults

/-! ## Looking up -/

/-- The entry for a type: that of the type as written, else that of its name.
mirrors `_typed_lookup` (mapping.lib 212-217) -/
def typedLookup {α : Type} (tables : Table α) (modernType : Text) : Option α :=
  match tables.get? modernType with
  | some entry => some entry
  | none => tables.get? (TypeToken.name modernType)

/-- The targets of the properties of a modern type.
mirrors `MappingConfiguration.property_table` (mapping.lib 201-206) -/
def propertyTable (m : Mapping) (modernType : Text) : Table (Option Text) :=
  match typedLookup m.properties modernType with
  | some table => table
  | none => (m.properties.get? commonKey).getD []

/-- The default properties of a modern type.
mirrors `MappingConfiguration.defaults_for` (mapping.lib 208-209) -/
def defaultsFor (m : Mapping) (modernType : Text) : Table Json :=
  (typedLookup m.defaults modernType).getD []

/-- Whether two configurations hold the same entries, in any order. -/
def sameAs (a b : Mapping) : Bool :=
  Table.sameEntries (fun s t => s = t) a.controlTypes b.controlTypes
    && Table.sameEntries (Table.sameEntries fun s t => s = t) a.properties b.properties
    && Table.sameEntries (Table.sameEntries fun s t => s = t) a.defaults b.defaults

/-! ## JSON -/

/-- The name of the table of types in JSON. -/
def controlTypesName : Text := "controlTypes".toList

/-- Another name of the table of types that is read. -/
def controlTypesOtherName : Text := "control_types".toList

/-- The name of the tables of properties in JSON. -/
def propertiesName : Text := "properties".toList

/-- The name of the tables of default properties in JSON. -/
def defaultsName : Text := "defaults".toList

/-- A target as JSON. -/
def targetJson : Option Text → Json
  | some target => .string target
  | none => .null

/-- A configuration as JSON.
mirrors `MappingConfiguration.to_data` (mapping.lib 168-170) -/
def toJson (m : Mapping) : Json :=
  .object
    [(controlTypesName, .object (m.controlTypes.map fun (k, v) => (k, .string v))),
      (propertiesName,
        .object (m.properties.map fun (k, t) =>
          (k, .object (t.map fun (p, v) => (p, targetJson v))))),
      (defaultsName, .object (m.defaults.map fun (k, t) => (k, .object t)))]

/-- The JSON text of a configuration. There is none if an integer among the defaults is too long to
be written.
mirrors `MappingConfiguration.to_json` (mapping.lib 172-173) -/
def toText (indent : Option Nat) (m : Mapping) : Option Text := m.toJson.render indent

/-- The indentation of exported configurations. -/
def exportIndent : Nat := 2

/-! ## Laws -/

theorem merged_empty (m : Mapping) : m.merged empty = m := rfl

end Mapping

end ModernControls
