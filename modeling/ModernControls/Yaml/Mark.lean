import ModernControls.Text

/-!
# Places in a YAML text

A mark is a place in a text. A message shows it as a line and a column, both counted from one,
with the part of the line around the place and a caret below it.
-/

namespace ModernControls.Yaml

/-- A place: characters before it, lines before its own, characters before it on its line. -/
structure Mark where
  index : Nat
  line : Nat
  column : Nat
  deriving DecidableEq, Repr, Inhabited

/-- A line break, of which YAML knows five. -/
def isBreak (c : Char) : Bool :=
  c = '\n' || c = '\r' || c = '\x85' || c = '\u2028' || c = '\u2029'

/-- The character that stands for the end of a text; no readable text holds it. -/
def endChar : Char := '\x00'

/-- A line break or the end. -/
def isBreakOrEnd (c : Char) : Bool := isBreak c || c = endChar

/-- The most characters a snippet may have on one side before it is cut. -/
def snippetReach : Nat := 36

/-- What a side of a snippet is cut to. -/
def snippetCut : Nat := 32

/-- The ellipsis of a cut snippet. -/
def ellipsis : Text := [' ', '.', '.', '.', ' ']

/-- One side of a snippet, read away from the place. -/
def snippetSide (text : Text) : Text × Bool :=
  let side := text.takeWhile fun c => !isBreakOrEnd c
  if snippetReach < side.length then (side.take snippetCut, true) else (side, false)

/-- The part of a snippet before the place. -/
def snippetHead (source : Text) (index : Nat) : Text :=
  let (side, isCut) := snippetSide (source.take index).reverse
  (if isCut then ellipsis else []) ++ side.reverse

/-- The part of a snippet from the place on. -/
def snippetTail (source : Text) (index : Nat) : Text :=
  let (side, isCut) := snippetSide (source.drop index)
  side ++ (if isCut then ellipsis else [])

/-- A mark as messages show it.
mirrors `Mark.get_snippet` of the YAML library -/
def Mark.text (source : Text) (mark : Mark) : Text :=
  let head := snippetHead source mark.index
  "  in \"<unicode string>\", line ".toList ++ Text.ofNat (mark.line + 1) ++ ", column ".toList
    ++ Text.ofNat (mark.column + 1) ++ ":\n".toList
    ++ Text.spaces 4 ++ head ++ snippetTail source mark.index ++ ['\n']
    ++ Text.spaces (4 + head.length) ++ ['^']

/-- Whether two marks show the same line and column. -/
def Mark.sameSpot (a b : Mark) : Bool := a.line = b.line && a.column = b.column

end ModernControls.Yaml
