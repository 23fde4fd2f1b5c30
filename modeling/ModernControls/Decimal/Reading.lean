import ModernControls.Decimal.Binary64
import ModernControls.Decimal.Integer
import ModernControls.Text.Blank
import ModernControls.Text.Digit

/-!
# Reading numbers

Integers in a base and decimal fractions read from texts. White space around a number is passed
over, and a decimal digit of any script counts as that digit. The information separators, which
trimming removes from texts, are no white space here.

Results:
- `digitIn?_lt`: the value of a digit is below the base;
- `withoutBase_of_no_letters`: a base that no letter names keeps all its digits.
-/

namespace ModernControls

/-- The value of a decimal digit or of one of the letters from a to f. -/
def hexValue? (c : Char) : Option Nat :=
  if 'a' ≤ c ∧ c ≤ 'f' then some (c.toNat - 'a'.toNat + 10)
  else if 'A' ≤ c ∧ c ≤ 'F' then some (c.toNat - 'A'.toNat + 10)
  else digitValue? c

/-- The value of a digit of a base up to sixteen. -/
def digitIn? (base : Nat) (c : Char) : Option Nat := (hexValue? c).filter (· < base)

/-- The number that a text of digits stands for; there is at least one digit. -/
def natIn? (base : Nat) (digits : Text) : Option Nat :=
  match digits with
  | [] => none
  | _ => digits.foldlM (fun n c => (digitIn? base c).map (n * base + ·)) 0

/-- Whether a character around a number is passed over. -/
def isSpacing (c : Char) : Bool := isBlank c && !(28 ≤ c.toNat && c.toNat ≤ 31)

/-- A text without a sign, and whether the sign was a minus. -/
def takeSign : Text → Bool × Text
  | '-' :: rest => (true, rest)
  | '+' :: rest => (false, rest)
  | text => (false, text)

/-- The letters that may follow a zero to name a base. -/
def baseLetters (base : Nat) : List Char :=
  if base = 16 then ['x', 'X'] else if base = 8 then ['o', 'O']
  else if base = 2 then ['b', 'B'] else []

/-- Digits of a base without the zero, of any script, and the letter that may name the base before
them. -/
def withoutBase (base : Nat) (digits : Text) : Text :=
  match digits with
  | zero :: c :: rest =>
    if digitValue? zero = some 0 ∧ (baseLetters base).contains c then rest else digits
  | _ => digits

/-- The integer that a text stands for in a base. -/
def integer? (base : Nat) (text : Text) : Option Int :=
  let (negative, digits) := takeSign (text.strip isSpacing)
  let digits := withoutBase base digits
  if base = 10 ∧ mostDigits < digits.length then none
  else (natIn? base digits).map fun n => if negative then -(n : Int) else n

/-- The exponent that ends a decimal fraction; zero if nothing is left. -/
def exponent? : Text → Option Int
  | [] => some 0
  | c :: rest =>
    if c = 'e' ∨ c = 'E' then
      let (negative, digits) := takeSign rest
      (natIn? 10 digits).map fun n => if negative then -(n : Int) else n
    else none

/-- The binary64 number nearest to the decimal fraction that a text stands for. -/
def fraction? (text : Text) : Option Binary64 :=
  let (negative, body) := takeSign (text.strip isSpacing)
  let name := body.lowered
  if name = "inf".toList ∨ name = "infinity".toList then some (.infinite negative)
  else if name = "nan".toList then some .nan
  else
    let whole := body.takeWhile isDecimalDigit
    let rest := body.dropWhile isDecimalDigit
    let (part, rest) := match rest with
      | '.' :: rest => (rest.takeWhile isDecimalDigit, rest.dropWhile isDecimalDigit)
      | _ => ([], rest)
    match natIn? 10 (whole ++ part), exponent? rest with
    | some c, some e => some (.ofDecimal negative c (e - part.length))
    | _, _ => none

theorem digitIn?_lt {base : Nat} {c : Char} {v : Nat} (h : digitIn? base c = some v) :
    v < base := by
  rw [digitIn?, Option.filter_eq_some_iff] at h
  exact of_decide_eq_true h.2

theorem withoutBase_of_no_letters {base : Nat} (h : baseLetters base = []) (digits : Text) :
    withoutBase base digits = digits := by
  unfold withoutBase
  split <;> simp [h]

end ModernControls
