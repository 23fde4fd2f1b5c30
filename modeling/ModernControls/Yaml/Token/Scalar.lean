import ModernControls.Decimal.Reading
import ModernControls.Yaml.Cursor
import ModernControls.Yaml.Token

/-!
# Reading scalars

Plain scalars, scalars between single or double quotation marks, and block scalars. A line break
inside a flow scalar counts as a space, and every further one stays a line break; a literal block
keeps its breaks and a folded one joins lines that are not indented.

The readers have a budget, the number of characters that are left, and take at least one character
with each step.
-/

namespace ModernControls.Yaml

/-- A blank within a line. -/
def isGap (c : Char) : Bool := c = ' ' || c = '\t'

/-- A gap, a line break or the end. -/
def isGapBreakOrEnd (c : Char) : Bool := isGap c || isBreakOrEnd c

/-- A space, a line break or the end. -/
def isSpaceBreakOrEnd (c : Char) : Bool := c = ' ' || isBreakOrEnd c

/-- Whether a character is a bracket, a brace or a comma, which end a plain scalar in a flow. -/
def isFlowMark (c : Char) : Bool := [',', '[', ']', '\x7b', '\x7d'].contains c

namespace Scalar

/-! ## Quoted scalars -/

/-- Line breaks, and the gaps that the lines begin with, as they count in a flow scalar.
mirrors `scan_flow_scalar_breaks` of the YAML library -/
def flowBreaks (since : Mark) : Nat → Cursor → Reading (Text × Cursor)
  | 0, c => .ok ([], c)
  | budget + 1, c =>
    if c.atDocumentIndicator then
      (Fault.during .quotedScalar since .documentSeparator c.mark).raise
    else
      let c := c.skip isGap
      if isBreak c.peek then do
        let (line, c) := c.takeBreak
        let (more, c) ← flowBreaks since budget c
        .ok (line ++ more, c)
      else .ok ([], c)

/-- What a gap in a quoted scalar stands for: itself within a line, a space or line breaks at the
end of one.
mirrors `scan_flow_scalar_spaces` of the YAML library -/
def flowGap (since : Mark) (c : Cursor) : Reading (Text × Cursor) :=
  let gap := c.run isGap
  let c := c.skip isGap
  if c.peek = endChar then (Fault.during .quotedScalar since .endOfStream c.mark).raise
  else if isBreak c.peek then do
    let (line, c) := c.takeBreak
    let (more, c) ← flowBreaks since (c.rest.length + 1) c
    if line ≠ ['\n'] then .ok (line ++ more, c)
    else if more.isEmpty then .ok ([' '], c)
    else .ok (more, c)
  else .ok (gap, c)

/-- The character for a letter after a backslash. -/
def escaped? (c : Char) : Option Char :=
  match c with
  | '0' => some '\x00'
  | 'a' => some '\x07'
  | 'b' => some '\x08'
  | 't' => some '\t'
  | '\t' => some '\t'
  | 'n' => some '\n'
  | 'v' => some '\x0B'
  | 'f' => some '\x0C'
  | 'r' => some '\r'
  | 'e' => some '\x1B'
  | ' ' => some ' '
  | '"' => some '"'
  | '\\' => some '\\'
  | '/' => some '/'
  | 'N' => some '\x85'
  | '_' => some '\xA0'
  | 'L' => some '\u2028'
  | 'P' => some '\u2029'
  | _ => none

/-- The number of hexadecimal digits after a backslash and a letter. -/
def codeLength? (c : Char) : Option Nat :=
  match c with
  | 'x' => some 2
  | 'u' => some 4
  | 'U' => some 8
  | _ => none

/-- Whether a character is a hexadecimal digit of ASCII. -/
def isHexDigit (c : Char) : Bool :=
  ('0' ≤ c && c ≤ '9') || ('a' ≤ c && c ≤ 'f') || ('A' ≤ c && c ≤ 'F')

/-- The character of a number of hexadecimal digits at the cursor. -/
def codePoint (since : Mark) (length : Nat) (c : Cursor) : Reading (Char × Cursor) :=
  let digits := c.rest.take length
  match (digits ++ List.replicate (length - digits.length) endChar).find? (!isHexDigit ·) with
  | some wrong =>
    (Fault.during .doubleQuotedScalar since (.expected (.hexadecimals length) wrong) c.mark).raise
  | none =>
    let code := (natIn? 16 digits).getD 0
    if 0x7FFFFFFF < code then .error (.breakage .hugeCodePoint)
    else if 0x10FFFF < code then .error (.breakage .codePoint)
    else .ok (Char.ofNat code, c.advance length)

/-- What a backslash before the cursor and the characters at it stand for.
mirrors `scan_flow_scalar_non_spaces` of the YAML library -/
def escape (since : Mark) (c : Cursor) : Reading (Text × Cursor) :=
  match escaped? c.peek with
  | some ch => .ok ([ch], c.next)
  | none =>
    match codeLength? c.peek with
    | some length => do
      let (ch, c) ← codePoint since length c.next
      .ok ([ch], c)
    | none =>
      if isBreak c.peek then
        let c := c.takeBreak.2
        flowBreaks since (c.rest.length + 1) c
      else
        (Fault.during .doubleQuotedScalar since (.unknownEscape c.peek) c.mark).raise

/-- A scalar between double quotation marks, from after the opening one. -/
def doubleBody (since : Mark) : Nat → Cursor → Reading (Text × Cursor)
  | 0, c => .ok ([], c)
  | budget + 1, c =>
    let ch := c.peek
    if ch = '"' then .ok ([], c.next)
    else if ch = '\\' then do
      let (part, c) ← escape since c.next
      let (more, c) ← doubleBody since budget c
      .ok (part ++ more, c)
    else if isGapBreakOrEnd ch then do
      let (part, c) ← flowGap since c
      let (more, c) ← doubleBody since budget c
      .ok (part ++ more, c)
    else do
      let (more, c) ← doubleBody since budget c.next
      .ok (ch :: more, c)

/-- A scalar between single quotation marks, from after the opening one. -/
def singleBody (since : Mark) : Nat → Cursor → Reading (Text × Cursor)
  | 0, c => .ok ([], c)
  | budget + 1, c =>
    let ch := c.peek
    if ch = '\'' then
      if c.peekAt 1 = '\'' then do
        let (more, c) ← singleBody since budget (c.advance 2)
        .ok ('\'' :: more, c)
      else .ok ([], c.next)
    else if isGapBreakOrEnd ch then do
      let (part, c) ← flowGap since c
      let (more, c) ← singleBody since budget c
      .ok (part ++ more, c)
    else do
      let (more, c) ← singleBody since budget c.next
      .ok (ch :: more, c)

/-- A quoted scalar at the cursor.
mirrors `scan_flow_scalar` of the YAML library -/
def quoted (style : ScalarStyle) (c : Cursor) : Reading (Token × Cursor) := do
  let body := if style = .double then doubleBody else singleBody
  let (value, c') ← body c.mark (c.rest.length + 1) c.next
  .ok (⟨.scalar value style, c.mark, c'.mark⟩, c')

/-! ## Plain scalars -/

/-- Whether a plain scalar stops at a character, given the one after it. -/
def plainStops (inFlow : Bool) (ch following : Char) : Bool :=
  isGapBreakOrEnd ch
    || (ch = ':' && (isGapBreakOrEnd following || (inFlow && isFlowMark following)))
    || (inFlow && (ch = '?' || isFlowMark ch))

/-- The part of a plain scalar up to the next gap. -/
def plainRun (inFlow : Bool) : Text → Text
  | [] => []
  | ch :: rest =>
    if plainStops inFlow ch (rest.headD endChar) then [] else ch :: plainRun inFlow rest

/-- Spaces and line breaks after a first line break, up to a document indicator; the indicator
gives nothing. -/
def plainBreaks : Nat → Cursor → Option Text × Cursor
  | 0, c => (some [], c)
  | budget + 1, c =>
    if c.peek = ' ' then plainBreaks budget c.next
    else if isBreak c.peek then
      let (line, c) := c.takeBreak
      if c.atDocumentIndicator then (none, c)
      else
        let (more, c) := plainBreaks budget c
        (more.map (line ++ ·), c)
    else (some [], c)

/-- What stands between two parts of a plain scalar, and whether a line ended there. Nothing means
that the scalar is over.
mirrors `scan_plain_spaces` of the YAML library -/
def plainGap (c : Cursor) : Text × Bool × Cursor :=
  let gap := c.run (· = ' ')
  let c := c.skipSpaces
  if isBreak c.peek then
    let (line, c) := c.takeBreak
    if c.atDocumentIndicator then ([], true, c)
    else match plainBreaks (c.rest.length + 1) c with
      | (none, c) => ([], true, c)
      | (some more, c) =>
        if line ≠ ['\n'] then (line ++ more, true, c)
        else if more.isEmpty then ([' '], true, c)
        else (more, true, c)
  else (gap, false, c)

/-- What is known of a plain scalar while it is read. -/
structure PlainState where
  value : Text
  finish : Mark
  lineEnded : Bool
  cursor : Cursor

/-- The parts of a plain scalar from the cursor on, after what stands between them and the parts
before. -/
def plainParts (inFlow : Bool) (indent : Nat) : Nat → Text → PlainState → PlainState
  | 0, _, s => s
  | budget + 1, gap, s =>
    if s.cursor.peek = '#' then s
    else
      let part := plainRun inFlow s.cursor.rest
      if part.isEmpty then s
      else
        let c := s.cursor.advance part.length
        let (gap', ended, c') := plainGap c
        let s' : PlainState := ⟨s.value ++ gap ++ part, c.mark, ended, c'⟩
        if gap'.isEmpty ∨ c'.peek = '#' ∨ (!inFlow ∧ c'.column < indent) then s'
        else plainParts inFlow indent budget gap' s'

/-- A plain scalar at the cursor, and whether a line ended after its last part.
mirrors `scan_plain` of the YAML library -/
def plain (inFlow : Bool) (indent : Nat) (c : Cursor) : Token × Bool × Cursor :=
  let s := plainParts inFlow indent (c.rest.length + 1) [] ⟨[], c.mark, false, c⟩
  (⟨.scalar s.value .plain, c.mark, s.finish⟩, s.lineEnded, s.cursor)

/-! ## Block scalars -/

/-- What happens to the line breaks at the end of a block scalar. -/
inductive Chomping
  | strip
  | clip
  | keep
  deriving DecidableEq, Repr

/-- The chomping and the indentation that a block scalar's header asks for. -/
structure Header where
  chomping : Chomping
  indentation : Option Nat

/-- The sign for chomping at the cursor. -/
def chomping? (c : Cursor) : Option Chomping :=
  if c.peek = '+' then some .keep else if c.peek = '-' then some .strip else none

/-- The digit for the indentation at the cursor. -/
def indentation (since : Mark) (c : Cursor) : Reading (Option Nat × Cursor) :=
  if isAsciiDigit c.peek then
    if c.peek = '0' then (Fault.during .blockScalar since .zeroIndentation c.mark).raise
    else .ok (some (c.peek.toNat - '0'.toNat), c.next)
  else .ok (none, c)

/-- The header of a block scalar after its style: both signs in either order.
mirrors `scan_block_scalar_indicators` of the YAML library -/
def header (since : Mark) (c : Cursor) : Reading (Header × Cursor) := do
  let (head, c) ← match chomping? c with
    | some chomping => do
      let (indentation, c) ← indentation since c.next
      .ok ((⟨chomping, indentation⟩ : Header), c)
    | none => do
      let (indentation, c) ← indentation since c
      match indentation, chomping? c with
      | some _, some chomping => .ok ((⟨chomping, indentation⟩ : Header), c.next)
      | _, _ => .ok ((⟨.clip, indentation⟩ : Header), c)
  if isSpaceBreakOrEnd c.peek then .ok (head, c)
  else (Fault.during .blockScalar since (.expected .blockIndicators c.peek) c.mark).raise

/-- The rest of a line that may hold only a comment.
mirrors `scan_block_scalar_ignored_line` of the YAML library -/
def ignoredLine (activity : Activity) (since : Mark) (c : Cursor) : Reading Cursor :=
  let c := c.skipSpaces
  let c := if c.peek = '#' then c.skipLine else c
  if isBreakOrEnd c.peek then .ok c.takeBreak.2
  else (Fault.during activity since (.expected .commentOrBreak c.peek) c.mark).raise

/-- Blank lines before the first line of a block scalar, and the widest of their indentations.
mirrors `scan_block_scalar_indentation` of the YAML library -/
def leadingBreaks : Nat → Nat → Cursor → Text × Nat × Cursor
  | 0, width, c => ([], width, c)
  | budget + 1, width, c =>
    if c.peek = ' ' then
      let c := c.next
      leadingBreaks budget (max width c.column) c
    else if isBreak c.peek then
      let (line, c) := c.takeBreak
      let (more, width, c) := leadingBreaks budget width c
      (line ++ more, width, c)
    else ([], width, c)

/-- Spaces up to an indentation. -/
def indentTo (indent : Nat) (c : Cursor) : Cursor :=
  c.advance (min (indent - c.column) (c.run (· = ' ')).length)

/-- Blank lines of a block scalar with a known indentation.
mirrors `scan_block_scalar_breaks` of the YAML library -/
def blankLines (indent : Nat) : Nat → Cursor → Text × Cursor
  | 0, c => ([], c)
  | budget + 1, c =>
    let c := indentTo indent c
    if isBreak c.peek then
      let (line, c) := c.takeBreak
      let (more, c) := blankLines indent budget c
      (line ++ more, c)
    else ([], c)

/-- Whether a line of a block scalar is at the cursor. -/
def atBlockLine (indent : Nat) (c : Cursor) : Bool := c.column = indent && c.peek ≠ endChar

/-- The lines of a block scalar, from the first on: their text, the break after the last line, the
breaks after that, and the cursor. -/
def blockLines (isFolded : Bool) (indent : Nat) : Nat → Cursor → Text × Text × Text × Cursor
  | 0, c => ([], [], [], c)
  | budget + 1, c =>
    let startsText := !isGap c.peek
    let line := c.run fun ch => !isBreakOrEnd ch
    let (lineBreak, c) := c.skipLine.takeBreak
    let (breaks, c) := blankLines indent (c.rest.length + 1) c
    if atBlockLine indent c then
      let between :=
        if isFolded ∧ lineBreak = ['\n'] ∧ startsText ∧ !isGap c.peek then
          if breaks.isEmpty then [' '] else []
        else lineBreak
      let (more, last, after, c) := blockLines isFolded indent budget c
      (line ++ between ++ breaks ++ more, last, after, c)
    else (line, lineBreak, breaks, c)

/-- A block scalar at the cursor; `parent` is the indentation that its lines must exceed, plus
one.
mirrors `scan_block_scalar` of the YAML library -/
def block (isFolded : Bool) (parent : Nat) (c : Cursor) : Reading (Token × Cursor) := do
  let since := c.mark
  let (head, c) ← header since c.next
  let c ← ignoredLine .blockScalar since c
  let least := max parent 1
  let (breaks, indent, c) := match head.indentation with
    | none =>
      let (breaks, width, c) := leadingBreaks (c.rest.length + 1) 0 c
      (breaks, max least width, c)
    | some n =>
      let indent := least + n - 1
      let (breaks, c) := blankLines indent (c.rest.length + 1) c
      (breaks, indent, c)
  let (text, last, after, c) :=
    if atBlockLine indent c then
      let (text, last, after, c) := blockLines isFolded indent (c.rest.length + 1) c
      (breaks ++ text, last, after, c)
    else ([], [], breaks, c)
  let ending := match head.chomping with
    | .strip => []
    | .clip => last
    | .keep => last ++ after
  let style := if isFolded then ScalarStyle.folded else .literal
  .ok (⟨.scalar (text ++ ending) style, since, c.mark⟩, c)

end Scalar

end ModernControls.Yaml
