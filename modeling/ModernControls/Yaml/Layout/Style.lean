import ModernControls.Yaml.Tag
import ModernControls.Yaml.Token.Scalar

/-!
# Styles of scalars

Which style a scalar is written in. A text is written plain where that reads back as the same text
with the same tag, else between single quotation marks, else between double ones, which take any
text.

Results:
- `style_of_forced_double`: a scalar that asks for double quotation marks gets them;
- `isPlainText_ne_nil`: only a text with characters is looked at for plain style.
-/

namespace ModernControls.Yaml.Layout

/-- A scalar that is to be written: what it holds, its text, and a style if one is asked for. -/
structure Leaf where
  tag : Tag
  text : Text
  forced : Option ScalarStyle
  deriving DecidableEq, Repr

/-- A line break inside a scalar. -/
def isFold (c : Char) : Bool :=
  c = '\n' || c = '\x85' || c = '\u2028' || c = '\u2029'

/-- Whether a character stands for itself outside of double quotation marks. -/
def isOrdinary (c : Char) : Bool :=
  let n := c.toNat
  c = '\n' || (0x20 ≤ n && n ≤ 0x7E) || n = 0x85 || (0xA0 ≤ n && n ≤ 0xD7FF)
    || (0xE000 ≤ n && n ≤ 0xFFFD && n ≠ 0xFEFF) || (0x10000 ≤ n && n < 0x10FFFF)

/-- Whether a text has several lines. -/
def isMultiline (text : Text) : Bool := text.any isFold

/-- Whether two characters of two classes stand side by side in a text. -/
def hasPair (p q : Char → Bool) : Text → Bool
  | a :: b :: rest => (p a && q b) || hasPair p q (b :: rest)
  | _ => false

/-- A space. -/
def isSpace (c : Char) : Bool := c = ' '

/-- Whether a text begins or ends with a space or a line break. -/
def hasGapAtEdge (text : Text) : Bool :=
  let p c := isSpace c || isFold c
  text.head?.any p || text.getLast?.any p

/-- The characters that no plain scalar begins with. -/
def firstIndicators : List Char :=
  ['#', ',', '[', ']', '\x7b', '\x7d', '&', '*', '!', '|', '>', '\'', '"', '%', '@', '\x60']

/-- The characters that no plain scalar begins with if a blank or nothing follows. -/
def loneIndicators : List Char := ['?', ':', '-']

/-- Whether a text goes on without a blank. -/
def goesOn : Text → Bool
  | [] => false
  | c :: _ => !isGapBreakOrEnd c && c ≠ '\r'

/-- Whether the first characters of a text are read as something else than a plain scalar. -/
def startsLikeIndicator (text : Text) : Bool :=
  match text with
  | [] => false
  | c :: rest =>
    firstIndicators.contains c || (loneIndicators.contains c && !goesOn rest)
      || Text.startsWith text ['-', '-', '-'] || Text.startsWith text ['.', '.', '.']

/-- Whether a colon before a blank or a number sign after one stands in a text after the given
character. -/
def holdsIndicatorAfter (before : Char) : Text → Bool
  | [] => false
  | c :: rest =>
    (c = ':' && !goesOn rest) || (c = '#' && (isGapBreakOrEnd before || before = '\r'))
      || holdsIndicatorAfter c rest

/-- Whether a text holds a mark that ends a plain scalar.
mirrors `analyze_scalar` of the YAML library -/
def holdsIndicator : Text → Bool
  | [] => false
  | c :: rest => holdsIndicatorAfter c rest

/-- Whether all of a text can be written without escapes and without losing blanks around
breaks. -/
def keepsSpaces (text : Text) : Bool :=
  text.all isOrdinary && !hasPair isSpace isFold text

/-- Whether a text with characters may be written plain. -/
def isPlainText (text : Text) : Bool :=
  !text.isEmpty && keepsSpaces text && !hasGapAtEdge text && !isMultiline text
    && !startsLikeIndicator text && !holdsIndicator text

/-- Whether a text may be written between single quotation marks. -/
def isSingleText (text : Text) : Bool := keepsSpaces text && !hasPair isFold isSpace text

/-- Whether a text may be written in lines below a header. -/
def isBlockText (text : Text) : Bool :=
  !text.isEmpty && keepsSpaces text && !text.getLast?.any isSpace

/-- Whether a plain scalar has the tag of a leaf without being given it.
mirrors `resolve` of the YAML library -/
def Leaf.isImplicit (leaf : Leaf) : Bool := leaf.tag = .ofScalar .full leaf.text

/-- Whether a leaf may be written plain; an empty text may not be a key on one line. -/
def Leaf.mayBePlain (isKey : Bool) (leaf : Leaf) : Bool :=
  leaf.isImplicit && (if leaf.text.isEmpty then !isKey else isPlainText leaf.text)

/-- The style that a leaf is written in, as a key on one line or elsewhere.
mirrors `choose_scalar_style` of the YAML library -/
def Leaf.style (isKey : Bool) (leaf : Leaf) : ScalarStyle :=
  let free := leaf.forced = none ∨ leaf.forced = some .plain
  if leaf.forced = some .double then .double
  else if free ∧ leaf.mayBePlain isKey then .plain
  else if leaf.forced = some .literal ∧ !isKey ∧ isBlockText leaf.text then .literal
  else if leaf.forced = some .folded ∧ !isKey ∧ isBlockText leaf.text then .folded
  else if (free ∨ leaf.forced = some .single) ∧ isSingleText leaf.text
      ∧ !(isKey && isMultiline leaf.text) then .single
  else .double

theorem style_of_forced_double (k : Bool) (t : Tag) (s : Text) :
    Leaf.style k ⟨t, s, some .double⟩ = .double := by
  simp [Leaf.style]

theorem isPlainText_ne_nil {t : Text} (h : isPlainText t = true) : t ≠ [] := by
  rintro rfl
  simp [isPlainText] at h

end ModernControls.Yaml.Layout
