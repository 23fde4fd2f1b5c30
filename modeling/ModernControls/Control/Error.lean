import ModernControls.Control.Property
import ModernControls.Yaml.Fault

/-!
# Errors

Why a text is no control document, why a control is not converted, and why a document is not
written, with the words for each.
-/

namespace ModernControls

/-- What is wrong with a text whose YAML is sound.
mirrors the places in dialect.lib 82-191 and engine.lib 139-148 that raise `UnsupportedInputError`
-/
inductive InputFault
  | notSingle
  | noControl
  | duplicateName (name : Text)
  | noType (name : Text)
  | invalidType (name : Text)
  | invalidProperties (name : Text)
  | unsupportedValue (path typeName : Text)
  | noDeclaration
  | severalControls (count : Nat)
  deriving DecidableEq, Repr

/-- A name between single quotation marks. -/
def InputFault.named (name : Text) : Text := '\'' :: name ++ ['\'']

/-- The words for a fault.
mirrors the texts at the same places -/
def InputFault.message : InputFault → Text
  | .notSingle => "Each sequence item must be a single control definition".toList
  | .noControl => "No control definition found".toList
  | .duplicateName name => "Duplicate control name: ".toList ++ name
  | .noType name => "Control ".toList ++ named name ++ " has no Control declaration".toList
  | .invalidType name => "Control ".toList ++ named name ++ " has an invalid Control type".toList
  | .invalidProperties name =>
    "Properties of ".toList ++ named name ++ " must be a mapping".toList
  | .unsupportedValue path typeName =>
    "Property ".toList ++ named path ++ " holds a ".toList ++ typeName
      ++ ", which is not a supported property value".toList
  | .noDeclaration => "No control definition found in input".toList
  | .severalControls count => "Expected exactly one control, found ".toList ++ Text.ofNat count

/-- Why a step on controls fails.
mirrors `StructuralError` to `UnsupportedControlTypeError` (core.errors 32-61) -/
inductive Control.Error
  | unparsed (report : Text)
  | input (fault : InputFault)
  | unsupportedType (token : Text)
  | unwritable (value : Foreign)
  | unsupportedValue (value : Unsupported)
  | broken (breakage : Yaml.Breakage)
  deriving DecidableEq

/-- A step that fails by a fault of the input. -/
def InputFault.raise {α : Type} (fault : InputFault) : Except Control.Error α :=
  .error (.input fault)

namespace Control.Error

/-- The report on an error. On a breakage there is none.
mirrors `ConversionError` (core.errors 16-61) as text -/
def report? : Error → Option Text
  | .unparsed report => some ("YAML parsing error: ".toList ++ report)
  | .input fault => some fault.message
  | .unsupportedType token => some ("Unsupported control type: ".toList ++ token)
  | .unwritable value =>
    some ("YAML conversion error: ('cannot represent an object', ".toList ++ value.shown ++ [')'])
  | .unsupportedValue value => some value.message
  | .broken _ => none

end Control.Error

end ModernControls
