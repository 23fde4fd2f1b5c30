import ModernControls.Text.Blank
import ModernControls.Text.Digit

/-!
# Key lines

Lines that hold a key and perhaps a value after a colon. The key stands after blanks and perhaps the
dash of an item; it has no quotation marks around it and ends at the first colon. The value, if
there is one, stands after blanks.

Results:
- `KeyLine.text_of_parse?`: a key line is its indentation, its key, a colon and its value after
  blanks, so no character is lost.
-/

namespace ModernControls.Formula

/-- The blanks, and perhaps the dash of an item and more blanks, before a key; and the rest. -/
def indentOf (line : Text) : Text × Text :=
  let blanks := line.takeWhile isSpaceOrTab
  let rest := line.dropWhile isSpaceOrTab
  match rest with
  | '-' :: after =>
    let more := after.takeWhile isSpaceOrTab
    if more.isEmpty then (blanks, rest)
    else (blanks ++ '-' :: more, after.dropWhile isSpaceOrTab)
  | _ => (blanks, rest)

/-- Whether a key may begin with a character.
mirrors the class at the start of `key` in `_KEY_LINE` (dialect.escaper 26) -/
def startsKey (c : Char) : Bool :=
  !isBlank c && c ≠ '#' && c ≠ '\'' && c ≠ '"' && c ≠ '-'

/-- A line with a key: what stands before the key, the key, and if the colon is not the end of the
line, the blanks after it and the value. -/
structure KeyLine where
  indent : Text
  key : Text
  value : Option (Text × Text)
  deriving DecidableEq, Repr

namespace KeyLine

/-- The line up to its colon. -/
def head (line : KeyLine) : Text := line.indent ++ line.key

/-- What follows the colon of a line: nothing, or blanks and a value. -/
def valueOf? (rest : Text) : Option (Option (Text × Text)) :=
  if rest.isEmpty then some none
  else
    let blanks := rest.takeWhile isSpaceOrTab
    if blanks.isEmpty then none else some (some (blanks, rest.dropWhile isSpaceOrTab))

/-- The parts of a line, if it is a key line.
mirrors `_KEY_LINE` (dialect.escaper 24-27) -/
def parse? (line : Text) : Option KeyLine :=
  match indentOf line with
  | (indent, c :: rest) =>
    if startsKey c then
      match Text.cut ':' rest with
      | (key, some after) => (valueOf? after).map fun value => ⟨indent, c :: key, value⟩
      | (_, none) => none
    else none
  | (_, []) => none

/-- What stands after the colon. -/
def valueText : Option (Text × Text) → Text
  | none => []
  | some (blanks, value) => blanks ++ value

/-- The text of a key line. -/
def text (line : KeyLine) : Text := line.head ++ ':' :: valueText line.value

theorem indentOf_append (line : Text) : (indentOf line).1 ++ (indentOf line).2 = line := by
  have h := List.takeWhile_append_dropWhile (p := isSpaceOrTab) (l := line)
  rw [indentOf]
  dsimp only
  split
  · next after h' =>
    have h2 := List.takeWhile_append_dropWhile (p := isSpaceOrTab) (l := after)
    split
    · exact h
    · rw [h'] at h
      rw [List.append_assoc, List.cons_append, h2, h]
  · exact h

theorem valueText_of_valueOf? {rest : Text} {value : Option (Text × Text)}
    (h : valueOf? rest = some value) : valueText value = rest := by
  rw [valueOf?] at h
  split at h
  · next he => cases h; simp_all [valueText]
  · dsimp only at h
    split at h
    · cases h
    · cases h; exact List.takeWhile_append_dropWhile

theorem text_of_parse? {line : Text} {k : KeyLine} (h : parse? line = some k) : k.text = line := by
  have ha := indentOf_append line
  rw [parse?] at h
  split at h
  · next indent c rest hi =>
    rw [hi] at ha
    split at h
    · split at h
      · next key after hcut =>
        obtain ⟨value, hv, rfl⟩ := Option.map_eq_some_iff.1 h
        rw [text, head, valueText_of_valueOf? hv, ← ha, Text.eq_of_cut hcut]
        simp
      · cases h
    · cases h
  · cases h

end KeyLine

end ModernControls.Formula
