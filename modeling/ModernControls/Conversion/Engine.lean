import ModernControls.Conversion.Convert
import ModernControls.Mapping.BuiltIn

/-!
# Engines

An engine converts texts with its own configuration and remembers the log of its last conversion.
Its configuration can be exported, replaced, and extended by another that is laid over it.

Requests to an engine are answered one after the other; a refused request leaves the configuration
as it was.

Results:
- `mapping_convert`: a conversion leaves the configuration as it was.
-/

namespace ModernControls

/-- A configuration and the log of the last conversion.
mirrors `ConversionEngine` (engine.lib 66-94) -/
structure Engine where
  mapping : Mapping
  lastLog : List Note
  deriving DecidableEq

namespace Engine

/-- An engine with the built-in configuration. -/
def builtIn : Engine := ⟨.builtIn, []⟩

/-- An engine with a configuration given as JSON, or with the built-in one.
mirrors the constructor of `ConversionEngine` (engine.lib 73-86) -/
def ofJson (mapping : Option Json) : Except Mapping.Error Engine :=
  match mapping with
  | none => .ok builtIn
  | some value => (Mapping.ofJson value).map (⟨·, []⟩)

/-- An engine after the outcome of a conversion: it remembers the log, unless the conversion broke
off without one.
mirrors `ConversionEngine.convert_with_log` (engine.lib 123, 127) -/
def remember (e : Engine) (outcome : Except Refusal Conversion) : Engine :=
  match outcome with
  | .ok conversion => { e with lastLog := conversion.log }
  | .error refusal =>
    if (Conversion.loggedReport? refusal.error).isSome then { e with lastLog := refusal.log } else e

/-- The conversion of a text.
mirrors `ConversionEngine.convert_with_log` (engine.lib 110-128) -/
def convert (e : Engine) (text : Text) : Engine × Except Refusal Conversion :=
  let outcome := Conversion.convert e.mapping text
  (e.remember outcome, outcome)

/-- An engine with an imported configuration, alone or laid over its own.
mirrors `ConversionEngine.import_mappings` (engine.lib 211) -/
def install (e : Engine) (merge : Bool) (imported : Mapping) : Engine :=
  { e with mapping := if merge then e.mapping.merged imported else imported }

/-- An engine after an import: none is made of a configuration that was refused.
mirrors `ConversionEngine.import_mappings` (engine.lib 194-216) and the setter at 92-94 -/
def adopt (e : Engine) (merge : Bool) (imported : Except Mapping.Error Mapping) :
    Engine × Except Mapping.Error Nat :=
  match imported with
  | .ok mapping =>
    let e := e.install merge mapping
    (e, .ok e.mapping.controlTypes.length)
  | .error error => (e, .error error)

/-- A configuration for an import of JSON: a string is read as JSON text.
mirrors `ConversionEngine.import_mappings` (engine.lib 206-209) -/
def mappingOfData (data : Json) : Except Mapping.Error Mapping :=
  match data with
  | .string text => Mapping.ofText text
  | data => Mapping.ofJson data

/-- A request to an engine. -/
inductive Request
  | convert (text : Text)
  | showLog
  | export
  | importText (text : Text) (merge : Bool)
  | importData (data : Json) (merge : Bool)
  | assign (data : Json)
  deriving DecidableEq

/-- The answer to a request. -/
inductive Reply
  | converted (outcome : Except Refusal Conversion)
  | log (notes : List Note)
  | exported (mapping : Mapping)
  | installed (types : Except Mapping.Error Nat)

/-- An engine after a request, and its answer.
mirrors the methods of `ConversionEngine` (engine.lib 88-216) -/
def answer (e : Engine) : Request → Engine × Reply
  | .convert text => ((e.convert text).1, .converted (e.convert text).2)
  | .showLog => (e, .log e.lastLog)
  | .export => (e, .exported e.mapping)
  | .importText text merge =>
    let adopted := e.adopt merge (Mapping.ofText text)
    (adopted.1, .installed adopted.2)
  | .importData data merge =>
    let adopted := e.adopt merge (mappingOfData data)
    (adopted.1, .installed adopted.2)
  | .assign data =>
    let adopted := e.adopt false (Mapping.ofJson data)
    (adopted.1, .installed adopted.2)

/-- An engine after several requests, and their answers. -/
def answerAll (e : Engine) : List Request → Engine × List Reply
  | [] => (e, [])
  | request :: rest =>
    let first := e.answer request
    let others := answerAll first.1 rest
    (others.1, first.2 :: others.2)

theorem mapping_remember (e : Engine) (outcome : Except Refusal Conversion) :
    (e.remember outcome).mapping = e.mapping := by
  unfold remember
  split
  · rfl
  · split <;> rfl

theorem mapping_convert (e : Engine) (text : Text) : (e.convert text).1.mapping = e.mapping :=
  mapping_remember _ _

theorem lastLog_adopt (e : Engine) (merge : Bool) (imported : Except Mapping.Error Mapping) :
    (e.adopt merge imported).1.lastLog = e.lastLog := by
  cases imported <;> rfl

end Engine

end ModernControls
