import ModernControls.Decimal.Reading
import ModernControls.Yaml.Fault

/-!
# Numbers in scalars

The numbers and truth values that scalars with their tags stand for. Low lines in a number are
passed over; integers may be in base two, eight, ten and sixteen, and parts joined by colons count
in base sixty.
-/

namespace ModernControls.Yaml.Number

/-- A text without low lines. -/
def withoutLines (text : Text) : Text := text.filter (· ≠ '_')

/-- The number of a text or, if it has none, a breakage. -/
def orBreak {α : Type} : Option α → Except Breakage α
  | some a => .ok a
  | none => .error .number

/-- The parts of a number in base sixty, the last one first. -/
def sixtieths (text : Text) : List Text := (text.split ':').reverse

/-- The integer of parts in base sixty, the lowest first, with the value of a unit. -/
def sumOfSixties (base : Int) : List Text → Option Int
  | [] => some 0
  | part :: rest => do
    let n ← integer? 10 part
    let more ← sumOfSixties (base * 60) rest
    some (n * base + more)

/-- The integer that a text without sign and low lines stands for. -/
def unsignedInteger (text : Text) : Except Breakage Int :=
  match text with
  | ['0'] => .ok 0
  | '0' :: 'b' :: rest => orBreak (integer? 2 rest)
  | '0' :: 'x' :: rest => orBreak (integer? 16 rest)
  | '0' :: _ => orBreak (integer? 8 text)
  | [] => .error .emptyNumber
  | _ =>
    if text.contains ':' then orBreak (sumOfSixties 1 (sixtieths text))
    else orBreak (integer? 10 text)

/-- The integer that a scalar stands for.
mirrors `construct_yaml_int` of the YAML library -/
def integer (text : Text) : Except Breakage Int := do
  let text := withoutLines text
  if text.isEmpty then .error .emptyNumber
  else do
    let (negative, rest) := takeSign text
    let n ← unsignedInteger rest
    .ok (if negative then -n else n)

/-- The fraction of parts in base sixty, the lowest first, added to a sum, with the value of a
unit. -/
def fractionOfSixties (base : Int) (sum : Binary64) : List Text → Except Breakage Binary64
  | [] => .ok sum
  | part :: rest => do
    let x ← orBreak (fraction? part)
    let unit := Binary64.ofInt base
    if unit.isFinite then fractionOfSixties (base * 60) (sum.add (x.mul unit)) rest
    else .error .hugeNumber

/-- The fraction that a text without sign and low lines, in lower case, stands for. -/
def unsignedFraction (text : Text) : Except Breakage Binary64 :=
  if text = ".inf".toList then .ok (.infinite false)
  else if text = ".nan".toList then .ok .nan
  else if text.contains ':' then do
    let parts := sixtieths text
    let numbers ← parts.mapM fun part => orBreak (fraction? part)
    if numbers.isEmpty then .error .number
    else fractionOfSixties 1 (.zero false) parts
  else orBreak (fraction? text)

/-- The fraction that a scalar stands for.
mirrors `construct_yaml_float` of the YAML library -/
def fraction (text : Text) : Except Breakage Binary64 := do
  let text := (withoutLines text).lowered
  if text.isEmpty then .error .emptyNumber
  else do
    let (negative, rest) := takeSign text
    let x ← unsignedFraction rest
    .ok (if negative then x.negate else x)

/-- Whether a scalar is written as no number. -/
def isUnordered (text : Text) : Bool :=
  (takeSign (withoutLines text).lowered).2 = ".nan".toList

/-- The truth value that a scalar stands for.
mirrors `construct_yaml_bool` of the YAML library -/
def truth (text : Text) : Except Breakage Bool :=
  let word := text.lowered
  if ["yes".toList, "true".toList, "on".toList].contains word then .ok true
  else if ["no".toList, "false".toList, "off".toList].contains word then .ok false
  else .error .boolean

end ModernControls.Yaml.Number
