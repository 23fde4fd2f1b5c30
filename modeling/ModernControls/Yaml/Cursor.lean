import ModernControls.Yaml.Mark

/-!
# Reading a YAML text character by character

A cursor is a place in a text together with what is left of it. Moving it on counts lines and
columns; a byte order mark takes no column.

Results:
- `rest_advance`: moving on by a number of characters drops them.
-/

namespace ModernControls.Yaml

/-- A place in a text and what is left of the text from there. -/
structure Cursor where
  rest : Text
  index : Nat
  line : Nat
  column : Nat
  deriving DecidableEq, Repr, Inhabited

/-- Where the first line of a text begins. -/
def Cursor.start (text : Text) : Cursor := ⟨text, 0, 0, 0⟩

namespace Cursor

/-- The character at a distance, or the end character past the end. -/
def peekAt (c : Cursor) (distance : Nat) : Char := (c.rest.drop distance).headD endChar

/-- The character at the cursor. -/
def peek (c : Cursor) : Char := c.rest.headD endChar

/-- The place of a cursor. -/
def mark (c : Cursor) : Mark := ⟨c.index, c.line, c.column⟩

/-- Whether a character ends its line, given the one after it: a carriage return before a line
feed leaves that to the line feed. -/
def endsLine (c following : Char) : Bool :=
  c = '\n' || c = '\x85' || c = '\u2028' || c = '\u2029' || (c = '\r' && following ≠ '\n')

/-- The cursor one character on; at the end it stays.
mirrors `forward` of the YAML library -/
def next (c : Cursor) : Cursor :=
  match c.rest with
  | [] => c
  | ch :: rest =>
    if endsLine ch (rest.headD endChar) then ⟨rest, c.index + 1, c.line + 1, 0⟩
    else if ch = '\uFEFF' then ⟨rest, c.index + 1, c.line, c.column⟩
    else ⟨rest, c.index + 1, c.line, c.column + 1⟩

/-- The cursor a number of characters on. -/
def advance (c : Cursor) : Nat → Cursor
  | 0 => c
  | n + 1 => c.next.advance n

/-- The characters of a class at the cursor. -/
def run (c : Cursor) (p : Char → Bool) : Text := c.rest.takeWhile p

/-- The cursor past the characters of a class. -/
def skip (c : Cursor) (p : Char → Bool) : Cursor := c.advance (c.run p).length

/-- The cursor past spaces. -/
def skipSpaces (c : Cursor) : Cursor := c.skip (· = ' ')

/-- The cursor past what is left of the line. -/
def skipLine (c : Cursor) : Cursor := c.skip fun ch => !isBreakOrEnd ch

/-- A line break at the cursor as it counts in a scalar, and the cursor past it. Carriage return,
line feed, both together and the next line character count as a line feed.
mirrors `scan_line_break` of the YAML library -/
def takeBreak (c : Cursor) : Text × Cursor :=
  match c.rest with
  | '\r' :: '\n' :: _ => (['\n'], c.advance 2)
  | ch :: _ =>
    if ch = '\r' ∨ ch = '\n' ∨ ch = '\x85' then (['\n'], c.next)
    else if ch = '\u2028' ∨ ch = '\u2029' then ([ch], c.next)
    else ([], c)
  | [] => ([], c)

/-- Whether three equal characters stand at the cursor with a blank or the end after them. -/
def atTriple (c : Cursor) (ch : Char) : Bool :=
  c.peek = ch && c.peekAt 1 = ch && c.peekAt 2 = ch
    && (isBreakOrEnd (c.peekAt 3) || c.peekAt 3 = ' ' || c.peekAt 3 = '\t')

/-- Whether a document indicator stands at the cursor. -/
def atDocumentIndicator (c : Cursor) : Bool := c.atTriple '-' || c.atTriple '.'

theorem rest_next (c : Cursor) : c.next.rest = c.rest.tail := by
  rw [next]
  split
  · next h => simp [h]
  · next h => split <;> (try split) <;> simp [h]

theorem rest_advance (c : Cursor) (n : Nat) : (c.advance n).rest = c.rest.drop n := by
  induction n generalizing c with
  | zero => rfl
  | succ n ih => rw [advance, ih, rest_next, List.drop_tail]

end Cursor

end ModernControls.Yaml
