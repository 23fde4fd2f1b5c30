import ModernControls.Decimal.Shortest

/-!
# Numbers of the binary64 format

Which data are numbers of the format: a finite one has a mantissa of 53 bits, or fewer if its
exponent is the least one.
-/
namespace ModernControls.Binary64

/-- Whether a number is one of the format, in the only way in which it is written there. -/
def Canonical : Binary64 → Prop
  | .finite _ mantissa exponent =>
    mantissa < mantissaBound ∧ leastExponent ≤ exponent ∧ exponent ≤ greatestExponent
      ∧ (mantissaBound ≤ 2 * mantissa ∨ exponent = leastExponent)
  | _ => True

end ModernControls.Binary64
