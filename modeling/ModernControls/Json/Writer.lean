import ModernControls.Decimal.Integer
import ModernControls.Decimal.Shortest
import ModernControls.Json.Value

/-!
# JSON text of values

A value on one line, or with one field or item on each line at an indentation. Texts stand between
double quotation marks; characters outside ASCII are escaped where that is asked for. A value with
an integer of too many digits has no text.

Results:
- `render_eq_none_iff`: which values have no text;
- `areShort_iff`, `areShortFields_iff`: which lists of values have a text.
-/

namespace ModernControls.Json

/-- Four hexadecimal digits of a code unit as an escape. -/
def unitEscape (unit : Nat) : Text := '\\' :: 'u' :: Text.ofHex 4 unit

/-- A character of a quoted text. -/
def quotedChar (asciiOnly : Bool) (c : Char) : Text :=
  let n := c.toNat
  if c = '"' then ['\\', '"']
  else if c = '\\' then ['\\', '\\']
  else if c = '\n' then ['\\', 'n']
  else if c = '\r' then ['\\', 'r']
  else if c = '\t' then ['\\', 't']
  else if n = 0x0C then ['\\', 'f']
  else if n = 0x08 then ['\\', 'b']
  else if n < 0x20 then unitEscape n
  else if asciiOnly ∧ 0x7E < n then
    if n < 0x10000 then unitEscape n
    else
      let m := n - 0x10000
      unitEscape (0xD800 + m / 0x400) ++ unitEscape (0xDC00 + m % 0x400)
  else [c]

/-- A text between double quotation marks.
mirrors `_quote` (dialect.escaper 40-42) and `encode_basestring` of the JSON library -/
def quote (asciiOnly : Bool) (text : Text) : Text :=
  '"' :: text.flatMap (quotedChar asciiOnly) ++ ['"']

/-- The names of the numbers that are not finite. -/
def specials : Binary64.Specials :=
  ⟨"NaN".toList, "Infinity".toList, "-Infinity".toList⟩

/-- The break before a line at a depth, if the layout has lines. -/
def lineAt (indent : Option Nat) (depth : Nat) : Text :=
  match indent with
  | none => []
  | some width => '\n' :: Text.spaces (width * depth)

/-- What stands between two fields or items at a depth. -/
def separatorAt (indent : Option Nat) (depth : Nat) : Text :=
  match indent with
  | none => [',', ' ']
  | some _ => ',' :: lineAt indent depth

mutual

/-- A value at a depth. -/
def renderAt (indent : Option Nat) (depth : Nat) : Json → Text
  | .null => "null".toList
  | .bool value => if value then "true".toList else "false".toList
  | .int value => Text.ofInt value
  | .float value => value.text specials
  | .string value => quote true value
  | .array [] => "[]".toList
  | .array items =>
    '[' :: lineAt indent (depth + 1) ++ renderItems indent (depth + 1) items
      ++ lineAt indent depth ++ [']']
  | .object [] => ['\x7b', '\x7d']
  | .object fields =>
    '\x7b' :: lineAt indent (depth + 1) ++ renderFields indent (depth + 1) fields
      ++ lineAt indent depth ++ ['\x7d']

/-- Items at a depth. -/
def renderItems (indent : Option Nat) (depth : Nat) : List Json → Text
  | [] => []
  | [item] => renderAt indent depth item
  | item :: rest =>
    renderAt indent depth item ++ separatorAt indent depth ++ renderItems indent depth rest

/-- Fields at a depth. -/
def renderFields (indent : Option Nat) (depth : Nat) : List (Text × Json) → Text
  | [] => []
  | [(key, value)] => quote true key ++ ':' :: ' ' :: renderAt indent depth value
  | (key, value) :: rest =>
    quote true key ++ ':' :: ' ' :: renderAt indent depth value
      ++ separatorAt indent depth ++ renderFields indent depth rest

end

mutual

/-- Whether every integer in a value is short enough to be written. -/
def isShort : Json → Bool
  | .int n => !isLongInteger n
  | .array items => areShort items
  | .object fields => areShortFields fields
  | _ => true

/-- Whether this is so in all items. -/
def areShort : List Json → Bool
  | [] => true
  | item :: rest => isShort item && areShort rest

/-- Whether this is so in all fields. -/
def areShortFields : List (Text × Json) → Bool
  | [] => true
  | (_, value) :: rest => isShort value && areShortFields rest

end

/-- The text of a value: on one line, or indented by a width for each depth. There is none if an
integer in the value is too long to be written.
mirrors `dumps` of the JSON library -/
def render (indent : Option Nat) (value : Json) : Option Text :=
  if value.isShort then some (renderAt indent 0 value) else none

theorem render_eq_none_iff {indent : Option Nat} {value : Json} :
    render indent value = none ↔ ¬value.isShort = true := by
  rw [render]
  split <;> simp [*]

theorem areShort_iff {items : List Json} :
    areShort items = true ↔ ∀ item ∈ items, item.isShort = true := by
  induction items with
  | nil => simp [areShort]
  | cons item rest ih => simp [areShort, ih]

theorem areShortFields_iff {fields : List (Text × Json)} :
    areShortFields fields = true ↔ ∀ field ∈ fields, field.2.isShort = true := by
  induction fields with
  | nil => simp [areShortFields]
  | cons field rest ih => simp [areShortFields, ih]

end ModernControls.Json
