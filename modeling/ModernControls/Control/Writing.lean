import ModernControls.Control.Document
import ModernControls.Control.Error
import ModernControls.Formula.Escape
import ModernControls.Yaml.Layout.Tree

/-!
# Writing control documents

The text of a document: controls under their names, each with its type, properties and further
parts in their order, formulas on lines of their own kind. Texts that would be read as formulas are
quoted.
-/

namespace ModernControls

open Yaml

namespace Property

/-- A text in the form in which it is read again as a text.
mirrors `_string_tree` (dialect.lib 245-253) -/
def treeOfText (text : Text) (form : TextForm) : PlainValue :=
  if text.head? = some formulaMark then .text (formulaMark :: text) (.forced .double)
  else if text.contains '\n' then .text text (.forced .double)
  else if text.trimStart.head? = some formulaSign then .text text (.forced .single)
  else .text text form

variable {κ : Type} [PropertyKey κ]

mutual

/-- A value as a tree.
mirrors `_value_tree` (dialect.lib 256-265) -/
def toTree : Property κ → PlainValue
  | .empty => .null
  | .formula expression => .text (formulaMark :: expression) (.forced .double)
  | .bool b => .bool b
  | .int n => .int n
  | .float x => .float x
  | .string t form => treeOfText t form
  | .object entries => .map (toTreeEntries entries)

/-- The entries of an object as those of a tree. -/
def toTreeEntries : List (κ × Property κ) → List (PlainValue × PlainValue)
  | [] => []
  | (key, value) :: rest => (PropertyKey.plain key, toTree value) :: toTreeEntries rest

end

end Property

namespace Control

mutual

/-- A further part of a control as a tree.
mirrors `_extra_tree` (dialect.lib 268-277) -/
def treeOfExtra : PlainValue → PlainValue
  | .foreign (.property value) => value.toTree
  | .text t form => Property.treeOfText t form
  | .list items => .list (treesOfItems items)
  | .map entries => .map (treesOfEntries entries)
  | value => value

/-- Items of a further part. -/
def treesOfItems : List PlainValue → List PlainValue
  | [] => []
  | item :: rest => treeOfExtra item :: treesOfItems rest

/-- Entries of a further part. -/
def treesOfEntries : List (PlainValue × PlainValue) → List (PlainValue × PlainValue)
  | [] => []
  | (key, value) :: rest => (key, treeOfExtra value) :: treesOfEntries rest

end

/-- The type of a control as a tree: with a version it is quoted, so that it stays one word until
its line is written. -/
def treeOfType (tag : Text) : PlainValue :=
  .text tag (if tag.contains TypeToken.versionSign then .forced .double else .plain)

/-- What stands under a key of a control.
mirrors `_node_tree` (dialect.lib 233-241) -/
def part (c : Control) (key : Text) : PlainValue :=
  if key = typeKey then treeOfType c.typeTag
  else if key = propertiesKey then .map (Property.toTreeEntries c.properties)
  else treeOfExtra ((c.extras.get? key).getD .null)

/-- A control as a tree.
mirrors `_node_tree` (dialect.lib 230-242) -/
def toTree (c : Control) : PlainValue :=
  let parts := Table.ofEntries (c.nodeKeys.map fun key => (key, c.part key))
  .map (parts.map fun (key, value) => (.text key .plain, value))

end Control

namespace Document

/-- The tree of a document with controls under their names: a list with a map for each, or a map.
mirrors `render_dialect` (dialect.lib 222-225) -/
def nest (entries : List (PlainValue × PlainValue)) (asSequence : Bool) : PlainValue :=
  if asSequence then .list (entries.map fun e => .map [e]) else .map entries

/-- A document as a tree. -/
def toTree (d : Document) : PlainValue :=
  nest (d.controls.map fun (name, control) => (.text name .plain, control.toTree)) d.asSequence

/-- The text of a tree with formulas. -/
def textOf (tree : PlainValue) : Except Control.Error Text :=
  match tree.toText with
  | .error (.foreign value) => .error (.unwritable value)
  | .error (.longInteger _) => .error (.broken .longInteger)
  | .ok text =>
    match Formula.unescape text with
    | .ok text => .ok text
    | .error b => .error (.broken b)

/-- The text of a document.
mirrors `render_dialect` (dialect.lib 213-227) -/
def render (d : Document) : Except Control.Error Text := textOf d.toTree

/-- The tree of a control with properties from plain values. -/
def plainControl (typeTag : Text) (properties : List (PlainValue × Property PlainValue)) :
    PlainValue :=
  .map [(.text typeKey .plain, Control.treeOfType typeTag),
    (.text propertiesKey .plain, .map (Property.toTreeEntries properties))]

/-- The text of a document with one control that has plain values for properties.
mirrors `format_control` (dialect.lib 280-306) -/
def format (name typeTag : Text) (entries : List (PlainValue × PlainValue)) (asSequence : Bool) :
    Except Control.Error Text :=
  match Property.ofEntries entries with
  | .error u => .error (.unsupportedValue u)
  | .ok properties =>
    textOf (nest [(.text name .plain, plainControl typeTag properties)] asSequence)

end Document

end ModernControls
