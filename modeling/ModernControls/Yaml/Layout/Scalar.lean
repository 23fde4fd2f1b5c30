import ModernControls.Yaml.Layout.Style

/-!
# Scalars as text

The text of a scalar in each style. A scalar of several lines goes on at an indentation.
-/

namespace ModernControls.Yaml.Layout

/-- The letters that escape characters inside double quotation marks. -/
def escapeLetters : List (Char × Char) :=
  [('\x00', '0'), ('\x07', 'a'), ('\x08', 'b'), ('\t', 't'), ('\n', 'n'), ('\x0B', 'v'),
    ('\x0C', 'f'), ('\r', 'r'), ('\x1B', 'e'), ('"', '"'), ('\\', '\\'), ('\x85', 'N'),
    ('\u2028', 'L'), ('\u2029', 'P')]

/-- A number in base sixteen with upper case letters, filled with zeros to a width. -/
def hex (width n : Nat) : Text := (Text.ofHex width n).raised

/-- Whether a character stands for itself between double quotation marks. -/
def isBare (c : Char) : Bool :=
  let n := c.toNat
  c ≠ '"' && c ≠ '\\' && n ≠ 0x2028 && n ≠ 0x2029 && n ≠ 0xFEFF
    && ((0x20 ≤ n && n ≤ 0x7E) || (0xA0 ≤ n && n ≤ 0xD7FF) || (0xE000 ≤ n && n ≤ 0xFFFD))

/-- A character between double quotation marks. -/
def doubleChar (c : Char) : Text :=
  if isBare c then [c]
  else match escapeLetters.lookup c with
    | some letter => ['\\', letter]
    | none =>
      let n := c.toNat
      if n ≤ 0xFF then '\\' :: 'x' :: hex 2 n
      else if n ≤ 0xFFFF then '\\' :: 'u' :: hex 4 n
      else '\\' :: 'U' :: hex 8 n

/-- A text between double quotation marks, on one line.
mirrors `write_double_quoted` of the YAML library -/
def double (text : Text) : Text := '"' :: text.flatMap doubleChar ++ ['"']

/-- The rest of a text between single quotation marks; `afterBreak` says whether a line has just
ended. A break is written twice, since one alone would be read as a space. -/
def singleBody (indent : Nat) (afterBreak : Bool) : Text → Text
  | [] => if afterBreak then Text.spaces indent else []
  | c :: rest =>
    if isFold c then
      (if !afterBreak && c = '\n' then ['\n'] else []) ++ c :: singleBody indent true rest
    else
      (if afterBreak then Text.spaces indent else [])
        ++ (if c = '\'' then ['\'', '\''] else [c]) ++ singleBody indent false rest

/-- A text between single quotation marks.
mirrors `write_single_quoted` of the YAML library -/
def single (indent : Nat) (text : Text) : Text := '\'' :: singleBody indent false text ++ ['\'']

/-- How a header tells that the line breaks at the end are kept. -/
def keepMark : Char := '+'

/-- What the header of a block says: the indentation if the first line does not show it, and what
becomes of the breaks at the end.
mirrors `determine_block_hints` of the YAML library -/
def blockHints (text : Text) : Text :=
  (if text.head?.any fun c => isSpace c || isFold c then ['2'] else [])
    ++ match text.reverse with
      | [] => []
      | [c] => if isFold c then [keepMark] else ['-']
      | c :: d :: _ => if !isFold c then ['-'] else if isFold d then [keepMark] else []

/-- The lines of a block whose breaks are those of the text; `atStart` says whether a line has not
begun yet.
mirrors `write_literal` of the YAML library -/
def literalBody (indent : Nat) (atStart : Bool) : Text → Text
  | [] => if atStart then [] else ['\n']
  | c :: rest =>
    if isFold c then c :: literalBody indent true rest
    else (if atStart then Text.spaces indent else []) ++ c :: literalBody indent false rest

/-- The lines of a block in which one break would be read as a space; `spaced` says whether the line
before began with a space.
mirrors `write_folded` of the YAML library -/
def foldedBody (indent : Nat) (atStart spaced : Bool) : Text → Text
  | [] => if atStart then [] else ['\n']
  | c :: rest =>
    if isFold c then
      let next := (rest.dropWhile isFold).head?
      let twice := !atStart && c = '\n' && !spaced && next.isSome && next ≠ some ' '
      (if twice then ['\n'] else []) ++ c :: foldedBody indent true spaced rest
    else if atStart then
      Text.spaces indent ++ c :: foldedBody indent false (c = ' ') rest
    else c :: foldedBody indent false spaced rest

/-- The text of a leaf in a style and the break after it. A leaf of several lines goes on at an
indentation. -/
def Leaf.body (indent : Nat) (leaf : Leaf) : ScalarStyle → Text
  | .plain => leaf.text ++ ['\n']
  | .single => single indent leaf.text ++ ['\n']
  | .double => double leaf.text ++ ['\n']
  | .literal => '|' :: blockHints leaf.text ++ '\n' :: literalBody indent true leaf.text
  | .folded => '>' :: blockHints leaf.text ++ '\n' :: foldedBody indent true true leaf.text

/-- The short form of the tag of a leaf. -/
def Leaf.tagText (leaf : Leaf) : Text := '!' :: '!' :: leaf.tag.ending?.getD []

/-- Whether the tag of a leaf in a style has to be written. -/
def Leaf.needsTag (leaf : Leaf) (style : ScalarStyle) : Bool := style ≠ .plain && leaf.tag ≠ .str

/-- A leaf that is no key on one line, after a gap, up to the end of its last line. A plain leaf
without text leaves nothing but the end of a line that has been begun; where there is no gap, none
has.
mirrors `expect_scalar` of the YAML library -/
def Leaf.write (gap : Text) (indent : Nat) (leaf : Leaf) : Text :=
  let style := leaf.style false
  if leaf.needsTag style then gap ++ leaf.tagText ++ ' ' :: leaf.body indent style
  else if style = .plain ∧ leaf.text.isEmpty then (if gap.isEmpty then [] else ['\n'])
  else gap ++ leaf.body indent style

/-- The length from which on a key is marked as one. -/
def keyLimit : Nat := 128

/-- The text of a leaf as a key on one line, if it can be one.
mirrors `check_simple_key` of the YAML library -/
def Leaf.key? (leaf : Leaf) : Option Text :=
  if leaf.text.isEmpty || isMultiline leaf.text
      || keyLimit ≤ leaf.tagText.length + leaf.text.length then none
  else match leaf.style true with
    | .plain => some leaf.text
    | .single => some (single 0 leaf.text)
    | _ => some (double leaf.text)

/-- Whether the breaks at the end of a leaf are kept by its header. -/
def Leaf.keepsBreaks (leaf : Leaf) : Bool :=
  let style := leaf.style false
  (style = .literal || style = .folded) && (blockHints leaf.text).getLast? = some keepMark

end ModernControls.Yaml.Layout
