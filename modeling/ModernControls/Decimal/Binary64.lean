/-!
# Binary floating point numbers

Numbers of the binary64 format as data: a sign, a mantissa below 2^53 and a power of two. Every
operation computes the exact rational result and rounds it once, to the nearest number of the
format, a tie to the even mantissa.

Results:
- `ofRatio_zero`: the ratio zero is the number zero.
-/

namespace ModernControls

/-- A number of the binary64 format; `finite s m e` is `m * 2 ^ e` with the sign `s`. -/
inductive Binary64
  | nan
  | infinite (negative : Bool)
  | finite (negative : Bool) (mantissa : Nat) (exponent : Int)
  deriving DecidableEq, Repr, Inhabited

namespace Binary64

/-- The exponent of the smallest positive number. -/
def leastExponent : Int := -1074

/-- The exponent of the largest finite number. -/
def greatestExponent : Int := 971

/-- One more than the largest mantissa. -/
def mantissaBound : Nat := Nat.pow 2 53

/-- Zero with a sign. -/
def zero (negative : Bool) : Binary64 := .finite negative 0 leastExponent

/-- The exponent that gives a positive ratio a mantissa of 53 bits, or fewer if that exponent is
below the least one. -/
def exponentOf (num den : Nat) : Int :=
  let size : Int := (Nat.log2 num : Int) - Nat.log2 den
  let reached :=
    if 0 ≤ size then den * Nat.pow 2 size.toNat ≤ num else den ≤ num * Nat.pow 2 (-size).toNat
  max (if reached then size - 52 else size - 53) leastExponent

/-- The quotient of two numbers rounded to the nearest integer, a tie to the even one. -/
def roundedQuotient (num den : Nat) : Nat :=
  let q := num / den
  let r := num % den
  if den < 2 * r ∨ (2 * r = den ∧ q % 2 = 1) then q + 1 else q

/-- The number nearest to a ratio. -/
def ofRatio (negative : Bool) (num den : Nat) : Binary64 :=
  if num = 0 ∨ den = 0 then zero negative
  else
    let e := exponentOf num den
    let m := if 0 ≤ e then roundedQuotient num (den * Nat.pow 2 e.toNat)
      else roundedQuotient (num * Nat.pow 2 (-e).toNat) den
    let (m, e) := if m = mantissaBound then (mantissaBound / 2, e + 1) else (m, e)
    if greatestExponent < e then .infinite negative else .finite negative m e

/-- The number nearest to a coefficient times a power of ten. -/
def ofDecimal (negative : Bool) (coefficient : Nat) (exponent : Int) : Binary64 :=
  if coefficient = 0 then zero negative
  else if 400 < exponent then .infinite negative
  else if exponent + (Nat.log2 coefficient + 1) < -400 then zero negative
  else if 0 ≤ exponent then ofRatio negative (coefficient * Nat.pow 10 exponent.toNat) 1
  else ofRatio negative coefficient (Nat.pow 10 (-exponent).toNat)

/-- The number nearest to an integer. -/
def ofInt (n : Int) : Binary64 := ofRatio (n < 0) n.natAbs 1

/-- Whether a number is finite. -/
def isFinite : Binary64 → Bool
  | .finite .. => true
  | _ => false

/-- The number with the other sign. -/
def negate : Binary64 → Binary64
  | .nan => .nan
  | .infinite s => .infinite !s
  | .finite s m e => .finite (!s) m e

/-- A signed integer times a power of two, rounded. -/
def ofScaled (n : Int) (e : Int) (zeroNegative : Bool) : Binary64 :=
  if n = 0 then zero zeroNegative
  else if 0 ≤ e then ofRatio (n < 0) (n.natAbs * Nat.pow 2 e.toNat) 1
  else ofRatio (n < 0) n.natAbs (Nat.pow 2 (-e).toNat)

/-- The mantissa of a number with its sign. -/
def signedMantissa (s : Bool) (m : Nat) : Int := if s then -(m : Int) else m

/-- The product of two numbers. -/
def mul : Binary64 → Binary64 → Binary64
  | .finite s m e, .finite s' m' e' =>
    ofScaled (signedMantissa (s != s') (m * m')) (e + e') (s != s')
  | .nan, _ => .nan
  | _, .nan => .nan
  | .infinite s, .infinite s' => .infinite (s != s')
  | .infinite s, .finite s' m _ => if m = 0 then .nan else .infinite (s != s')
  | .finite s m _, .infinite s' => if m = 0 then .nan else .infinite (s != s')

/-- The sum of two numbers. -/
def add : Binary64 → Binary64 → Binary64
  | .finite s m e, .finite s' m' e' =>
    let low := min e e'
    let shifted (s : Bool) (m : Nat) (e : Int) : Int :=
      signedMantissa s (m * Nat.pow 2 (e - low).toNat)
    ofScaled (shifted s m e + shifted s' m' e') low (s && s')
  | .nan, _ => .nan
  | _, .nan => .nan
  | .infinite s, .infinite s' => if s = s' then .infinite s else .nan
  | .infinite s, .finite .. => .infinite s
  | .finite .., .infinite s => .infinite s

/-- Whether a number is a given integer. -/
def isInt (x : Binary64) (n : Int) : Bool :=
  match x with
  | .finite s m e =>
    if 0 ≤ e then signedMantissa s (m * Nat.pow 2 e.toNat) = n
    else signedMantissa s m = n * Nat.pow 2 (-e).toNat
  | _ => false

/-- Whether two numbers have the same value; the two zeros do, and what is no number has no
value. -/
def sameValue : Binary64 → Binary64 → Bool
  | .finite s m e, .finite s' m' e' => (m = 0 && m' = 0) || (s = s' && m = m' && e = e')
  | .infinite s, .infinite s' => s = s'
  | _, _ => false

theorem ofRatio_zero (s : Bool) (den : Nat) : ofRatio s 0 den = zero s := by
  simp [ofRatio]

end Binary64

end ModernControls
