import ModernControls.Text

/-!
# Blank characters

The characters that trimming removes: the white space of Unicode together with the four
information separators U+001C to U+001F.

Results:
- `not_isBlank_head_trimStart`: a text trimmed at its start does not begin with a blank;
- `trimStart_idem`: trimming twice is trimming once.
-/

namespace ModernControls

/-- Whether trimming removes a character. -/
def isBlank (c : Char) : Bool :=
  let n := c.toNat
  (9 ≤ n && n ≤ 13) || (28 ≤ n && n ≤ 32) || n = 0x85 || n = 0xA0 || n = 0x1680
    || (0x2000 ≤ n && n ≤ 0x200A) || n = 0x2028 || n = 0x2029 || n = 0x202F || n = 0x205F
    || n = 0x3000

/-- A space or a tab, the two characters that indent and separate within a line. -/
def isSpaceOrTab (c : Char) : Bool := c = ' ' || c = '\t'

namespace Text

/-- A text without the blanks it begins with. -/
def trimStart (text : Text) : Text := text.dropWhile isBlank

/-- A text without the blanks it ends with. -/
def trimEnd (text : Text) : Text := dropEndWhile isBlank text

/-- A text without the blanks at either end. -/
def trim (text : Text) : Text := strip isBlank text

/-- Whether a text holds nothing but blanks. -/
def isAllBlank (text : Text) : Bool := text.all isBlank

/-- Single and double quotation marks removed from both ends. -/
def unquote (text : Text) : Text := strip (fun c => c = '"' || c = '\'') text

theorem not_isBlank_head_trimStart {t : Text} {c : Char} {r : Text}
    (h : trimStart t = c :: r) : isBlank c = false := by
  induction t with
  | nil => simp [trimStart] at h
  | cons d t ih =>
    rw [trimStart, List.dropWhile_cons] at h
    split at h
    · exact ih h
    · next hd => cases h; simpa using hd

theorem trimStart_idem (t : Text) : trimStart (trimStart t) = trimStart t := by
  cases h : trimStart t with
  | nil => rfl
  | cons c r => simp [trimStart, not_isBlank_head_trimStart h]

end Text

end ModernControls
