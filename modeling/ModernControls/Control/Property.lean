import ModernControls.Control.Marks
import ModernControls.Table
import ModernControls.Text.Blank
import ModernControls.Yaml.Tree

/-!
# Property values

What a property of a control holds: nothing, a formula, a truth value, a number, a text, or an
object with entries of its own. Formulas are kept apart from texts, so a value never changes its
kind.

Plain values, as files and mapping tables hold them, have no formulas: there a text whose first
character that is no blank is an equality sign means one.

Results:
- `Property.same_iff`: the equality test answers whether two values are equal.
-/

namespace ModernControls

open Yaml (TextForm)

/-- What a property of a control holds. In documents the keys of objects are texts; an object that
comes from a plain map keeps the keys of that.
mirrors `PropertyValue` (model.lib 27-117) -/
inductive Property (κ : Type := Text)
  | empty
  | formula (expression : Text)
  | bool (value : Bool)
  | int (value : Int)
  | float (value : Binary64)
  | string (value : Text) (form : TextForm)
  | object (entries : List (κ × Property κ))
  deriving Inhabited

/-- The properties of a control in order. -/
abbrev Properties := Table Property

namespace Property

variable {κ ι : Type}

section Equality

variable [DecidableEq κ]

mutual

/-- Whether two values are equal. -/
def same : Property κ → Property κ → Bool
  | .empty, .empty => true
  | .formula a, .formula b => a = b
  | .bool a, .bool b => a = b
  | .int a, .int b => a = b
  | .float a, .float b => a = b
  | .string a f, .string b g => a = b && f = g
  | .object a, .object b => sameEntries a b
  | _, _ => false

/-- Whether two lists of entries are equal. -/
def sameEntries : List (κ × Property κ) → List (κ × Property κ) → Bool
  | [], [] => true
  | (k, a) :: as, (l, b) :: bs => k = l && same a b && sameEntries as bs
  | _, _ => false

end

mutual

theorem same_iff : ∀ a b : Property κ, same a b = true ↔ a = b
  | .empty, b => by cases b <;> simp [same]
  | .formula _, b => by cases b <;> simp [same]
  | .bool _, b => by cases b <;> simp [same]
  | .int _, b => by cases b <;> simp [same]
  | .float _, b => by cases b <;> simp [same]
  | .string .., b => by cases b <;> simp [same]
  | .object as, b => by cases b <;> simp [same, sameEntries_iff as]

theorem sameEntries_iff : ∀ as bs : List (κ × Property κ), sameEntries as bs = true ↔ as = bs
  | [], bs => by cases bs <;> simp [sameEntries]
  | (k, a) :: as, bs => by
    cases bs with
    | nil => simp [sameEntries]
    | cons b bs =>
      obtain ⟨l, b⟩ := b
      simp [sameEntries, same_iff a, sameEntries_iff as]

end

instance : DecidableEq (Property κ) := fun a b => decidable_of_iff _ (same_iff a b)

end Equality

/-- A plain text as a value. -/
def ofText (text : Text) : Property := .string text .plain

/-- Whether a value is an object. -/
def isObject : Property κ → Bool
  | .object _ => true
  | _ => false

/-- Whether a value is a formula. -/
def isFormula : Property κ → Bool
  | .formula _ => true
  | _ => false

mutual

/-- A value with other keys in the place of those of its objects. -/
def mapKeys (f : κ → ι) : Property κ → Property ι
  | .empty => .empty
  | .formula expression => .formula expression
  | .bool b => .bool b
  | .int n => .int n
  | .float x => .float x
  | .string t form => .string t form
  | .object entries => .object (mapEntryKeys f entries)

/-- Entries with other keys in the place of theirs. -/
def mapEntryKeys (f : κ → ι) : List (κ × Property κ) → List (ι × Property ι)
  | [] => []
  | (key, value) :: rest => (f key, mapKeys f value) :: mapEntryKeys f rest

end

end Property

/-- A value inside a plain one that is not plain itself: a property value, or a value of a type that
nothing here knows, with the name of the type and a text that shows the value. -/
inductive Foreign
  | property (value : Property)
  | unknown (typeName shown : Text)
  deriving DecidableEq, Inhabited

/-- Plain values, as files and mapping tables hold them. -/
abbrev PlainValue := Yaml.Tree Foreign

/-- A value that is no property value, known by the name of its type. -/
structure Unsupported where
  typeName : Text
  deriving DecidableEq, Repr

/-- The words for a value that is no property value. -/
def Unsupported.message (u : Unsupported) : Text :=
  "Unsupported property value type: ".toList ++ u.typeName

namespace Foreign

/-- The name of the type of a value. -/
def typeName : Foreign → Text
  | .property _ => "PropertyValue".toList
  | .unknown typeName _ => typeName

end Foreign

/-- What the keys of objects are as plain values. -/
class PropertyKey (κ : Type) where
  /-- A key as a plain value. -/
  plain : κ → PlainValue

instance : PropertyKey Text where
  plain key := .text key .plain

instance : PropertyKey PlainValue where
  plain key := key

@[simp] theorem PropertyKey.plain_text (key : Text) : plain key = .text key .plain := rfl

@[simp] theorem PropertyKey.plain_plain (key : PlainValue) : plain key = key := rfl

namespace Property

/-- A value whose keys are texts, with these as plain values. -/
def keyed : Property → Property PlainValue := mapKeys PropertyKey.plain

/-- A value whose keys are plain values, with the texts that these become. -/
def named : Property PlainValue → Property := mapKeys Yaml.Tree.keyText

/-- A plain text as a value. -/
def ofPlainText (text : Text) (form : TextForm) : Property PlainValue :=
  match text.trimStart with
  | c :: expression => if c = formulaSign then .formula expression else .string text form
  | [] => .string text form

mutual

/-- A plain value inside an object. -/
def ofEntry : PlainValue → Except Unsupported (Property PlainValue)
  | .null => .ok .empty
  | .bool b => .ok (.bool b)
  | .int n => .ok (.int n)
  | .float x => .ok (.float x)
  | .text t form => .ok (ofPlainText t form)
  | .map entries => (ofEntries entries).map .object
  | .foreign (.property value) => .ok value.keyed
  | .foreign (.unknown typeName _) => .error ⟨typeName⟩
  | .bytes b => .error ⟨Yaml.Tree.typeName Foreign.typeName (.bytes b)⟩
  | .moment m => .error ⟨Yaml.Tree.typeName Foreign.typeName (.moment m)⟩
  | .list items => .error ⟨Yaml.Tree.typeName Foreign.typeName (.list items)⟩
  | .tuple items => .error ⟨Yaml.Tree.typeName Foreign.typeName (.tuple items)⟩
  | .set items => .error ⟨Yaml.Tree.typeName Foreign.typeName (.set items)⟩

/-- The entries of a plain map.
mirrors `PropertyValue.obj` (model.lib 51-60) -/
def ofEntries : List (PlainValue × PlainValue) →
    Except Unsupported (List (PlainValue × Property PlainValue))
  | [] => .ok []
  | (key, value) :: rest => do
    let value ← ofEntry value
    let rest ← ofEntries rest
    .ok ((key, value) :: rest)

end

/-- A plain value as a property value; nothing is none.
mirrors `PropertyValue.from_python` (model.lib 62-86) -/
def ofPlain (value : PlainValue) : Except Unsupported (Property PlainValue) :=
  match value with
  | .null => .error ⟨Yaml.Tree.typeName Foreign.typeName value⟩
  | value => ofEntry value

section Plain

variable {κ : Type} [PropertyKey κ]

mutual

/-- A value as a plain one: a formula gets its sign.
mirrors `PropertyValue.to_python` (model.lib 96-105) -/
def toPlain : Property κ → PlainValue
  | .empty => .null
  | .formula expression => .text (formulaSign :: expression) .plain
  | .bool b => .bool b
  | .int n => .int n
  | .float x => .float x
  | .string t form => .text t form
  | .object entries => .map (toPlainEntries entries)

/-- The entries of an object as those of a plain map. -/
def toPlainEntries : List (κ × Property κ) → List (PlainValue × PlainValue)
  | [] => []
  | (key, value) :: rest => (PropertyKey.plain key, toPlain value) :: toPlainEntries rest

end

mutual

/-- A value as logs name it; there is no name if an integer in it is too long to be written.
mirrors `PropertyValue.as_text` (model.lib 107-117) -/
def asText : Property κ → Option Text
  | .empty => some []
  | .formula expression => some (formulaSign :: expression)
  | .bool b => some (if b then "true".toList else "false".toList)
  | .int n => if isLongInteger n then none else some (Text.ofInt n)
  | .float x => some (x.text .short)
  | .string t _ => some t
  | .object entries => do
    let texts ← entryTexts entries
    some ('\x7b' :: Text.join [',', ' '] texts ++ ['\x7d'])

/-- Entries as logs name them. -/
def entryTexts : List (κ × Property κ) → Option (List Text)
  | [] => some []
  | (key, value) :: rest => do
    let name ← (PropertyKey.plain key).keyText?
    let text ← asText value
    let rest ← entryTexts rest
    some ((name ++ ':' :: ' ' :: text) :: rest)

end

end Plain

/-- The name of the kind of a value.
mirrors `ValueKind` (model.lib 14-21) -/
def kindName {κ : Type} : Property κ → Text
  | .empty => []
  | .formula _ => "formula".toList
  | .bool _ => "boolean".toList
  | .int _ => "number".toList
  | .float _ => "number".toList
  | .string .. => "string".toList
  | .object _ => "object".toList

/-- A value of a kind as messages show it. -/
def shownAs (kind shown : Text) : Text :=
  "PropertyValue(kind=<ValueKind.".toList ++ kind.raised ++ ": '".toList ++ kind
    ++ "'>, value=".toList ++ shown ++ [')']

mutual

/-- A value as messages show it. -/
def shown : Property → Text
  | .empty => "None".toList
  | .formula expression => shownAs "formula".toList expression.shown
  | .bool b => shownAs "boolean".toList (Yaml.Tree.shownBool b)
  | .int n => shownAs "number".toList (Text.ofInt n)
  | .float x => shownAs "number".toList (x.text .short)
  | .string t _ => shownAs "string".toList t.shown
  | .object entries =>
    shownAs "object".toList ('\x7b' :: Text.join [',', ' '] (shownEntries entries) ++ ['\x7d'])

/-- Entries as messages show them. -/
def shownEntries : List (Text × Property) → List Text
  | [] => []
  | (key, value) :: rest => (key.shown ++ ':' :: ' ' :: shown value) :: shownEntries rest

end

theorem ofPlain_null : ofPlain .null = .error ⟨"NoneType".toList⟩ := rfl

end Property

/-- A foreign value as messages show it. -/
def Foreign.shown : Foreign → Text
  | .property value => value.shown
  | .unknown _ shown => shown

end ModernControls
