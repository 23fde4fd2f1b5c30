import ModernControls.Control.TypeToken

/-!
# Names for controls

A name for a control that has none: the last part of its type and a number.
-/

namespace ModernControls.TypeToken

/-- A name for a control of a type: the one that is given, unless it is empty, else one made with a
number.
mirrors `generate_control_name` (mapping.lib 428-451) -/
def suggestName (token : Text) (given : Option Text) (number : Int) : Text :=
  match given with
  | some (c :: rest) => c :: rest
  | _ => lastPart (name token) ++ Text.ofInt number

end ModernControls.TypeToken
