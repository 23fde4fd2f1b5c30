import ModernControls.Text

/-!
# Decimal integers

How many digits an integer may have in base ten. A longer one is neither read from digits nor
written with them; it can still be counted with, and other bases have no limit.

Results:
- `isLongInteger_neg`: the sign does not count as a digit;
- `length_ofNat_le_iff`: the numbers with at most so many digits are those below a power of ten;
- `isLongInteger_iff`: the long integers are those from a power of ten on, on either side.
-/

namespace ModernControls

/-- The most digits that an integer in base ten may have.
mirrors the default limit on the digits of integers that become texts and back -/
def mostDigits : Nat := 4300

/-- Whether an integer has more digits than it may have in base ten. -/
def isLongInteger (n : Int) : Bool := mostDigits < (Text.ofNat n.natAbs).length

theorem isLongInteger_neg (n : Int) : isLongInteger (-n) = isLongInteger n := by
  simp [isLongInteger]

theorem length_ofNat_le_iff (n : Nat) {k : Nat} (h : 0 < k) :
    (Text.ofNat n).length ≤ k ↔ n < Nat.pow 10 k :=
  Nat.length_toDigits_le_iff (by decide) h

theorem isLongInteger_iff (n : Int) :
    isLongInteger n = true ↔ Nat.pow 10 mostDigits ≤ n.natAbs := by
  rw [isLongInteger, decide_eq_true_iff, ← Nat.not_le, length_ofNat_le_iff _ (by decide),
    Nat.not_lt]

theorem isLongInteger_of_le {k : Nat} (h : Nat.pow 10 mostDigits ≤ k) :
    isLongInteger (k : Int) = true := by
  rw [isLongInteger_iff, Int.natAbs_natCast]
  exact h

end ModernControls
