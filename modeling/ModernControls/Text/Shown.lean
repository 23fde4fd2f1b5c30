import ModernControls.Text.Printable

/-!
# Texts shown in messages

How a message shows a text: between single quotation marks, or between double ones if the text
holds a single one and no double one, with every character that is not printable written as an
escape.
-/

namespace ModernControls.Text

/-- One character of a shown text. -/
def shownChar (quote c : Char) : Text :=
  if c = quote ∨ c = '\\' then ['\\', c]
  else if c = '\n' then ['\\', 'n']
  else if c = '\r' then ['\\', 'r']
  else if c = '\t' then ['\\', 't']
  else if isPrintable c then [c]
  else
    let n := c.toNat
    if n < 0x100 then '\\' :: 'x' :: ofHex 2 n
    else if n < 0x10000 then '\\' :: 'u' :: ofHex 4 n
    else '\\' :: 'U' :: ofHex 8 n

/-- The quotation mark that a shown text stands between. -/
def shownQuote (text : Text) : Char :=
  if text.contains '\'' && !text.contains '"' then '"' else '\''

/-- A text as messages show it. -/
def shown (text : Text) : Text :=
  let quote := shownQuote text
  quote :: text.flatMap (shownChar quote) ++ [quote]

/-- Texts shown one after the other between brackets. -/
def shownList (texts : List Text) : Text :=
  '[' :: join [',', ' '] (texts.map shown) ++ [']']

end ModernControls.Text
