import ModernControls.Decimal.Binary64
import ModernControls.Text

/-!
# The shortest decimal

The decimal with the fewest digits that is read back as a given binary64 number; of two with
equally many digits the nearer one, and of two equally near the even one.

Results:
- `ofDecimal_shortest`: the chosen decimal reads back, or is the exact value.
-/

namespace ModernControls.Binary64

/-- A positive finite number as a ratio. -/
def ratioOf (mantissa : Nat) (exponent : Int) : Nat × Nat :=
  if 0 ≤ exponent then (mantissa * Nat.pow 2 exponent.toNat, 1)
  else (mantissa, Nat.pow 2 (-exponent).toNat)

/-- A ratio divided by a power of ten, as a ratio. -/
def scaleDown (num den : Nat) (power : Int) : Nat × Nat :=
  if 0 ≤ power then (num, den * Nat.pow 10 power.toNat)
  else (num * Nat.pow 10 (-power).toNat, den)

/-- The exponent of the first digit of a positive ratio. -/
def leadingExponent (num den : Nat) : Int :=
  let estimate := ((Nat.log2 num : Int) - Nat.log2 den) * 30103 / 100000
  let reached (p : Int) : Bool :=
    let (n, d) := scaleDown num den p
    d ≤ n
  if reached (estimate + 1) then estimate + 1
  else if reached estimate then estimate
  else estimate - 1

/-- The two multiples of a power of ten around a positive number, the nearer one first. -/
def neighbours (mantissa : Nat) (exponent power : Int) : List Nat :=
  let (num, den) := ratioOf mantissa exponent
  let (n, d) := scaleDown num den power
  let q := n / d
  let r := n % d
  if d < 2 * r ∨ (2 * r = d ∧ q % 2 = 1) then [q + 1, q] else [q, q + 1]

/-- Whether a decimal is read as a given positive number. -/
def readsAs (mantissa : Nat) (exponent power : Int) (coefficient : Nat) : Bool :=
  ofDecimal false coefficient power = .finite false mantissa exponent

/-- The decimal of a given number of digits that is nearest to a positive number, if it or the
one on the other side is read as that number. -/
def decimalOfLength? (mantissa : Nat) (exponent : Int) (lead : Int) (length : Nat) :
    Option (Nat × Int) :=
  let power := lead - length + 1
  ((neighbours mantissa exponent power).find? (readsAs mantissa exponent power)).map (·, power)

/-- The exact value of a finite number as a coefficient and a power of ten. -/
def exactDecimal (mantissa : Nat) (exponent : Int) : Nat × Int :=
  if 0 ≤ exponent then (mantissa * Nat.pow 2 exponent.toNat, 0)
  else (mantissa * Nat.pow 5 (-exponent).toNat, exponent)

/-- The shortest decimal of at most seventeen digits that reads back. -/
def shortest? (mantissa : Nat) (exponent : Int) : Option (Nat × Int) :=
  let (num, den) := ratioOf mantissa exponent
  let lead := leadingExponent num den
  (List.range' 1 17).findSome? (decimalOfLength? mantissa exponent lead)

/-- The coefficient and the power of ten of the shortest decimal of a positive finite number. -/
def shortest (mantissa : Nat) (exponent : Int) : Nat × Int :=
  (shortest? mantissa exponent).getD (exactDecimal mantissa exponent)

theorem ofDecimal_of_decimalOfLength? {m : Nat} {e lead : Int} {n : Nat} {r : Nat × Int}
    (h : decimalOfLength? m e lead n = some r) : ofDecimal false r.1 r.2 = .finite false m e := by
  simp only [decimalOfLength?, Option.map_eq_some_iff] at h
  obtain ⟨c, hc, rfl⟩ := h
  have hr : readsAs m e (lead - n + 1) c = true := List.find?_some hc
  exact of_decide_eq_true hr

theorem ofDecimal_shortest (m : Nat) (e : Int) :
    ofDecimal false (shortest m e).1 (shortest m e).2 = .finite false m e
      ∨ shortest m e = exactDecimal m e := by
  cases h : shortest? m e with
  | none => exact .inr (by rw [shortest, h]; rfl)
  | some found =>
    obtain ⟨n, _, hn⟩ := List.exists_of_findSome?_eq_some h
    left
    rw [shortest, h]
    exact ofDecimal_of_decimalOfLength? hn

/-- Digits without zeros at the end, and the power of ten of the last one that stays. -/
def withoutTrailingZeros (digits : Text) (power : Int) : Text × Int :=
  let zeros := (digits.reverse.takeWhile (· = '0')).length
  (digits.take (digits.length - zeros), power + zeros)

/-- Decimal digits with their point, or with an exponent if the first digit stands below the
fourth place after the point or above the sixteenth before it. -/
def layOut (digits : Text) (power : Int) : Text :=
  let point : Int := power + digits.length
  if -4 < point ∧ point ≤ 16 then
    if point ≤ 0 then '0' :: '.' :: (List.replicate (-point).toNat '0' ++ digits)
    else if digits.length ≤ point then
      digits ++ List.replicate (point.toNat - digits.length) '0' ++ ['.', '0']
    else digits.take point.toNat ++ '.' :: digits.drop point.toNat
  else
    let e := point - 1
    let size := Text.ofNat e.natAbs
    let mantissa := match digits with
      | [d] => [d]
      | d :: rest => d :: '.' :: rest
      | [] => []
    mantissa ++ ['e', if e < 0 then '-' else '+']
      ++ (if size.length < 2 then '0' :: size else size)

/-- How a number that is no finite number is written. -/
structure Specials where
  nan : Text
  positive : Text
  negative : Text

/-- The short names of the numbers that are not finite. -/
def Specials.short : Specials := ⟨"nan".toList, "inf".toList, "-inf".toList⟩

/-- The shortest text of a number: always with a point or an exponent. -/
def text (specials : Specials) : Binary64 → Text
  | .nan => specials.nan
  | .infinite negative => if negative then specials.negative else specials.positive
  | .finite negative mantissa exponent =>
    let body :=
      if mantissa = 0 then "0.0".toList
      else
        let (c, power) := shortest mantissa exponent
        let (digits, power) := withoutTrailingZeros (Text.ofNat c) power
        layOut digits power
    if negative then '-' :: body else body

end ModernControls.Binary64
