import ModernControls.Mapping.Configuration
import ModernControls.Note

/-!
# Finding the modern type

The modern type for a classic one: that of the type as written, else that of its name, else of the
first entry that is the same but for case, as a whole or by its name.

Results:
- `resolve_exact`: an entry for the type as written decides.
-/

namespace ModernControls.Mapping

/-- The target of the first entry whose key is a token but for case.
mirrors the constructor of `TypeMapper` (mapping.lib 268-272) -/
def getFolded? (types : Table Text) (token : Text) : Option Text :=
  (types.find? fun entry => entry.1.fold = token.fold).map (·.2)

/-- The modern type for a classic one, and how it was found.
mirrors `TypeMapper.resolve` (mapping.lib 274-302) -/
def resolve (m : Mapping) (token : Text) : Option (Text × Note) :=
  let token := TypeToken.unwrapped token
  let name := TypeToken.name token
  let found (how : TypeMatch) (target : Text) := (target, Note.typeFound how token target)
  (m.controlTypes.get? token).map (found .exact)
    <|> (m.controlTypes.get? name).map (found .base)
    <|> (getFolded? m.controlTypes token).map (found .caseless)
    <|> (getFolded? m.controlTypes name).map (found .baseCaseless)

theorem resolve_exact {m : Mapping} {token target : Text}
    (h : m.controlTypes.get? (TypeToken.unwrapped token) = some target) :
    m.resolve token = some (target, .typeFound .exact (TypeToken.unwrapped token) target) := by
  simp [resolve, h]

end ModernControls.Mapping
