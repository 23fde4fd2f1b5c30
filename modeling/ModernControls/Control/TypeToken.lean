import ModernControls.Text.Blank
import ModernControls.Text.Folding

/-!
# Type tokens

The type of a control is written as a name, perhaps with an at sign and a version after it. The
category of a type is its name without what stands before the last slash, case apart.

Results:
- `join_none`: without a version the token is the name.
-/

namespace ModernControls.TypeToken

/-- The character before the version. -/
def versionSign : Char := '@'

/-- The name of a type and its version, if it has one.
mirrors `split_type_token` (model.lib 120-129) -/
def split (token : Text) : Text × Option Text :=
  let token := token.trim
  match Text.cutLast? versionSign token with
  | some (name, version) =>
    if name.isEmpty then (token, none)
    else (name, if version.isEmpty then none else some version)
  | none => (token, none)

/-- A name with a version, if there is one.
mirrors `join_type_token` (model.lib 132-134) -/
def join (name : Text) (version : Option Text) : Text :=
  match version with
  | some version => if version.isEmpty then name else name ++ versionSign :: version
  | none => name

/-- The name of a type. -/
def name (token : Text) : Text := (split token).1

/-- The version of a type. -/
def version (token : Text) : Option Text := (split token).2

/-- The part of a name after its last slash. -/
def lastPart (name : Text) : Text :=
  match Text.cutLast? '/' name with
  | some (_, part) => part
  | none => name

/-- The category of a type.
mirrors `control_category` (engine.rules 48-51) -/
def category (token : Text) : Text := (lastPart (name token)).fold

/-- A type without the blanks and quotation marks around it.
mirrors `_unwrap_tag` (dialect.lib 144-146) -/
def unwrapped (token : Text) : Text := token.trim.unquote.trim

theorem join_none (name : Text) : join name none = name := rfl

end ModernControls.TypeToken
