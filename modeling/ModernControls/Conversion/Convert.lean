import ModernControls.Control.Reading
import ModernControls.Control.Scan
import ModernControls.Control.Writing
import ModernControls.Conversion.Rules
import ModernControls.Mapping.Properties
import ModernControls.Mapping.Types

/-!
# Converting a control

A text with one classic control becomes the text of the modern one. Every step is noted, and where
the conversion fails the last note says why.

Results:
- `convert_ok_log`, `convert_error_log`: what the log of a conversion ends with.
-/

namespace ModernControls

/-- A converted control: its text, its document, and its types before and after.
mirrors `ConversionResult` (engine.lib 47-63) without its log -/
structure Converted where
  output : Text
  document : Document
  classicType : Text
  modernType : Text
  deriving DecidableEq

/-- A conversion that was carried out, with its notes. -/
structure Conversion where
  result : Converted
  log : List Note
  deriving DecidableEq

/-- A conversion that was refused, with the notes made until then.
mirrors `ConversionError` (core.errors 16-29) with its log -/
structure Refusal where
  error : Control.Error
  log : List Note
  deriving DecidableEq

namespace Conversion

/-- Notes made on the way to a result or an error. -/
abbrev Attempt (α : Type) := List Note × Except Control.Error α

/-- Notes made before an attempt. -/
def Attempt.after {α : Type} (notes : List Note) (attempt : Attempt α) : Attempt α :=
  (notes ++ attempt.1, attempt.2)

/-- An attempt that goes on from a result. -/
def Attempt.andThen {α β : Type} (attempt : Attempt α) (next : α → Attempt β) : Attempt β :=
  match attempt with
  | (notes, .ok a) => (next a).after notes
  | (notes, .error e) => (notes, .error e)

/-- The modern type of a control.
mirrors `ConversionEngine._convert` (engine.lib 152-155) -/
def typeFor (m : Mapping) (classicType : Text) : Attempt Text :=
  match m.resolve classicType with
  | some (modernType, note) => ([note], .ok modernType)
  | none => ([.unsupportedType classicType], .error (.unsupportedType classicType))

/-- The properties of a control of a modern type as its table and defaults give them.
mirrors `ConversionEngine._convert` (engine.lib 157-159) -/
def mappedFor (m : Mapping) (control : Control) (modernType : Text) : Attempt Properties :=
  match m.mapProperties control.properties modernType with
  | .ok (properties, notes) => (notes, .ok properties)
  | .error e => ([], .error e)

/-- Properties after the rule for the type of a control, if there is one.
mirrors `ConversionEngine._convert` (engine.lib 161-163) -/
def ruledFor (control : Control) (modernType : Text) (properties : Properties) :
    Attempt Properties :=
  match RuleTable.builtIn.find? modernType (some control.typeTag) with
  | some rule =>
    let result := rule.apply control.properties properties
    (result.2, .ok result.1)
  | none => ([], .ok properties)

/-- A modern control written out.
mirrors `ConversionEngine._convert` (engine.lib 175-184) -/
def written (classicType : Text) (document : Document) (modernType : Text) : Attempt Converted :=
  match document.render with
  | .ok output => ([.completed], .ok ⟨output, document, classicType, modernType⟩)
  | .error e => ([], .error e)

/-- The document of a modern control in the place of a classic one.
mirrors `ConversionEngine._convert` (engine.lib 165-174) -/
def modernDocument (name : Text) (control : Control) (asSequence : Bool) (modernType : Text)
    (properties : Properties) : Document :=
  .single name { control with typeTag := modernType, properties := properties } asSequence

/-- The conversion of a control that has been read.
mirrors `ConversionEngine._convert` (engine.lib 149-184) -/
def convertControl (m : Mapping) (name : Text) (control : Control) (asSequence : Bool) :
    Attempt Converted :=
  (typeFor m control.typeTag).andThen fun modernType =>
    (mappedFor m control modernType).andThen fun mapped =>
      (ruledFor control modernType mapped).andThen fun properties =>
        written control.typeTag (modernDocument name control asSequence modernType properties)
          modernType

/-- The conversion of a document, which must hold one control.
mirrors `ConversionEngine._convert` (engine.lib 145-148) -/
def convertDocument (m : Mapping) (document : Document) : Attempt Converted :=
  match document.controls with
  | [(name, control)] => convertControl m name control document.asSequence
  | controls => ([], .error (.input (.severalControls controls.length)))

/-- The conversion of a text that declares a control.
mirrors `ConversionEngine._convert` (engine.lib 144) -/
def convertDeclared (m : Mapping) (text : Text) : Attempt Converted :=
  match Document.parse text with
  | .ok document => convertDocument m document
  | .error e => ([], .error e)

/-- The conversion of a text, with the notes made on the way.
mirrors `ConversionEngine._convert` (engine.lib 134-184) -/
def attempt (m : Mapping) (text : Text) : Attempt Converted :=
  Attempt.after [.started] (match Declaration.scan text with
    | none => ([], .error (.input .noDeclaration))
    | some d => (convertDeclared m text).after [.found d.name d.fullType])

/-- The report that a log ends with, if the error is one that is logged: a breakage and a value
that no property holds are not. -/
def loggedReport? : Control.Error → Option Text
  | .broken _ => none
  | .unsupportedValue _ => none
  | e => e.report?

/-- The conversion of a text.
mirrors `ConversionEngine.convert_with_log` (engine.lib 110-128) -/
def convert (m : Mapping) (text : Text) : Except Refusal Conversion :=
  match attempt m text with
  | (notes, .ok result) => .ok ⟨result, notes⟩
  | (notes, .error e) =>
    match loggedReport? e with
    | some report => .error ⟨e, notes ++ [.failed report]⟩
    | none => .error ⟨e, []⟩

theorem convert_ok_log {m : Mapping} {text : Text} {c : Conversion}
    (h : convert m text = .ok c) : attempt m text = (c.log, .ok c.result) := by
  rw [convert] at h
  split at h
  · next notes result ha => cases h; exact ha
  · split at h <;> cases h

theorem convert_error_log {m : Mapping} {text : Text} {r : Refusal}
    (h : convert m text = .error r) {report : Text} (hr : loggedReport? r.error = some report) :
    r.log.getLast? = some (.failed report) := by
  rw [convert] at h
  split at h
  · cases h
  · next e ha =>
    split at h
    · next report' hr' => cases h; simp_all
    · next hn => cases h; simp_all

end Conversion

end ModernControls
