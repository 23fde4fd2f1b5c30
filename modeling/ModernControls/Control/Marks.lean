import ModernControls.Text

/-!
# Marks of control texts

The keys and characters by which the parts of a control are known.
-/

namespace ModernControls

/-- The key of the type of a control.
mirrors `CONTROL_KEY` (dialect.lib 42) -/
def typeKey : Text := "Control".toList

/-- The key of the properties of a control.
mirrors `PROPERTIES_KEY` (dialect.lib 43) -/
def propertiesKey : Text := "Properties".toList

/-- The character that formulas begin with.
mirrors `FORMULA_PREFIX` (model.lib 24) -/
def formulaSign : Char := '='

/-- The mark before a formula between quotation marks.
mirrors `SENTINEL` (dialect.escaper 19) -/
def formulaMark : Char := '\x1E'

end ModernControls
