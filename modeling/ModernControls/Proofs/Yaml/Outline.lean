import ModernControls.Proofs.Yaml.Block
import ModernControls.Yaml.Layout.Tree

/-!
# Outlines

The outline of a text says which lists, maps and line ends it consists of, before any of them is
read: a tree whose leaves are what stands on a line after a key or a dash. The text of a layout, a
text with formula lines, and the escaped text that is read as YAML are texts of outlines, and they
differ in their leaves only.

Results:
- `write_parts`: after a key or a dash an outline begins with a gap or the end of the line;
- `readable_write`: the characters of a sound outline can be read.
-/
namespace ModernControls.Yaml

/-- What stands on a line after a key or a dash, and below it if it is a block. -/
inductive LineEnd
  | nothing
  | word (w : Word)
  | formula (expression : Text)
  | literal (keeps : Bool) (lines : List Text)
  | brackets
  | braces

/-- Lists, maps and line ends. -/
inductive Outline
  | leaf (last : LineEnd)
  | list (items : List Outline)
  | map (entries : List (Word × Outline))

namespace LineEnd

/-- The rest of a line up to its end, and a block below it at an indentation. -/
def write (indent : Nat) : LineEnd → Text
  | nothing => ['\n']
  | word w => ' ' :: w.written ++ ['\n']
  | formula e => ' ' :: '=' :: e ++ ['\n']
  | literal keeps lines =>
    ' ' :: '|' :: Scalar.blockSign keeps :: '\n' :: blockText indent lines
  | brackets => " []\n".toList
  | braces => [' ', '\x7b', '\x7d', '\n']

/-- The kinds of the tokens of a line end. A formula line has none of its own. -/
def kinds : LineEnd → List TokenKind
  | nothing => []
  | word w => [.scalar w.value w.style]
  | formula _ => []
  | literal keeps lines => [.scalar (Scalar.blockValue keeps lines) .literal]
  | brackets => [.flowSequenceStart, .flowSequenceEnd]
  | braces => [.flowMappingStart, .flowMappingEnd]

/-- Whether a line end is read as it is meant. -/
def Sound : LineEnd → Prop
  | word w => w.Sound
  | formula _ => False
  | literal keeps lines => ∃ l ls, lines = l :: ls ∧ (∃ d t, l = d :: t ∧ d ≠ ' ') ∧ OnLines lines
    ∧ (keeps = false → lines.getLast? ≠ some []) ∧ ∀ l ∈ lines, ∀ c ∈ l, isReadable c = true
  | _ => True

end LineEnd

namespace Outline

open Layout (Place)

mutual

/-- An outline up to the end of its last line. -/
def write (place : Place) (indent : Nat) : Outline → Text
  | leaf last => last.write indent
  | list items => writeItems (place.lead indent) indent items
  | map entries => writeEntries (place.lead indent) indent entries

/-- Items of a list, the first after a lead. -/
def writeItems (lead : Text) (indent : Nat) : List Outline → Text
  | [] => []
  | item :: rest =>
    lead ++ '-' :: write .item (indent + Layout.step) item
      ++ writeItems (Text.spaces indent) indent rest

/-- Entries of a map, the first after a lead. -/
def writeEntries (lead : Text) (indent : Nat) : List (Word × Outline) → Text
  | [] => []
  | (key, value) :: rest =>
    lead ++ key.written ++ ':' :: write .value (indent + Layout.step) value
      ++ writeEntries (Text.spaces indent) indent rest

end

mutual

/-- The kinds of the tokens of an outline. -/
def kinds : Outline → List TokenKind
  | leaf last => last.kinds
  | list items => [.blockSequenceStart] ++ itemKinds items ++ [.blockEnd]
  | map entries => [.blockMappingStart] ++ entryKinds entries ++ [.blockEnd]

/-- The kinds of the tokens of items. -/
def itemKinds : List Outline → List TokenKind
  | [] => []
  | item :: rest => [.blockEntry] ++ kinds item ++ itemKinds rest

/-- The kinds of the tokens of entries. -/
def entryKinds : List (Word × Outline) → List TokenKind
  | [] => []
  | (key, value) :: rest =>
    [.key, .scalar key.value key.style, .value] ++ kinds value ++ entryKinds rest

end

mutual

/-- Whether an outline is read as it is meant: its line ends are, and its keys are short enough to
be seen as keys. -/
def Sound : Outline → Prop
  | leaf last => last.Sound
  | list items => items ≠ [] ∧ SoundItems items
  | map entries => entries ≠ [] ∧ SoundEntries entries

/-- Whether items are read as they are meant. -/
def SoundItems : List Outline → Prop
  | [] => True
  | item :: rest => Sound item ∧ SoundItems rest

/-- Whether entries are read as they are meant. -/
def SoundEntries : List (Word × Outline) → Prop
  | [] => True
  | (key, value) :: rest =>
    (key.Sound ∧ key.written.length ≤ Lexer.keyReach) ∧ Sound value ∧ SoundEntries rest

end

/-! ## What a text of an outline begins with -/

/-- A sound list or map holds something. -/
theorem Sound.ne_nil {o : Outline} (h : o.Sound) : o ≠ list [] ∧ o ≠ map [] :=
  ⟨fun he => (he ▸ h : (list []).Sound).1 rfl, fun he => (he ▸ h : (map []).Sound).1 rfl⟩

theorem write_parts {p : Place} (hp : p ≠ .start) {o : Outline} (ho : o ≠ list [] ∧ o ≠ map [])
    (indent : Nat) (r : Text) : Parts (o.write p indent ++ r) := by
  cases o with
  | leaf last => cases last <;> simp [write, LineEnd.write, Parts]
  | list items =>
    cases items with
    | nil => exact absurd rfl ho.1
    | cons item rest =>
      cases p with
      | start => exact absurd rfl hp
      | item => simp [write, writeItems, Place.lead, Parts]
      | value => simp [write, writeItems, Place.lead, Parts]
  | map entries =>
    cases entries with
    | nil => exact absurd rfl ho.2
    | cons entry rest =>
      cases p with
      | start => exact absurd rfl hp
      | item => simp [write, writeEntries, Place.lead, Parts]
      | value => simp [write, writeEntries, Place.lead, Parts]

theorem opens_dash {raw : Text} (h : Parts raw) : Opens ('-' :: raw) := by
  obtain ⟨c, r, rfl, rfl | rfl⟩ := h
  · exact ⟨by simp; decide, rfl, rfl⟩
  · exact ⟨by simp; decide, rfl, rfl⟩

/-! ## The characters of an outline -/

theorem readable_spaces (n : Nat) : ∀ c ∈ Text.spaces n, isReadable c = true := fun c hc => by
  rw [List.eq_of_mem_replicate hc]; decide

theorem readable_lead (place : Place) (indent : Nat) :
    ∀ c ∈ place.lead indent, isReadable c = true := by
  cases place with
  | start => simp [Place.lead]
  | item => simp [Place.lead]; decide
  | value =>
    intro c hc
    rcases List.mem_cons.1 hc with rfl | hc
    · decide
    · exact readable_spaces indent c hc

theorem readable_lineEnd {last : LineEnd} (h : last.Sound) (indent : Nat) :
    ∀ c ∈ last.write indent, isReadable c = true := by
  intro c hc
  cases last with
  | nothing => exact (by decide : ∀ c ∈ ['\n'], isReadable c = true) c hc
  | word w =>
    simp only [LineEnd.write, List.cons_append, List.mem_cons, List.mem_append, List.not_mem_nil,
      or_false] at hc
    rcases hc with rfl | hc | rfl
    · decide
    · exact Word.readable h c hc
    · decide
  | formula e => exact h.elim
  | literal keeps lines =>
    obtain ⟨l, ls, rfl, -, -, -, hread⟩ := h
    simp only [LineEnd.write, List.mem_cons, blockText, List.mem_flatMap, List.mem_append,
      List.not_mem_nil, or_false] at hc
    rcases hc with rfl | rfl | rfl | rfl | ⟨x, hx, hc | rfl⟩
    · decide
    · decide
    · cases keeps <;> decide
    · decide
    · split at hc
      · cases hc
      · rcases List.mem_append.1 hc with hc | hc
        · exact readable_spaces indent c hc
        · exact hread x (List.mem_cons.2 hx) c hc
    · decide
  | brackets => exact (by decide : ∀ c ∈ " []\n".toList, isReadable c = true) c hc
  | braces => exact (by decide : ∀ c ∈ [' ', '\x7b', '\x7d', '\n'], isReadable c = true) c hc

mutual

theorem readable_write (place : Place) (indent : Nat) :
    ∀ o : Outline, o.Sound → ∀ c ∈ o.write place indent, isReadable c = true
  | leaf _, h => readable_lineEnd h indent
  | list items, h => readable_writeItems indent (readable_lead place indent) items h.2
  | map entries, h => readable_writeEntries indent (readable_lead place indent) entries h.2

theorem readable_writeItems (indent : Nat) {lead : Text} (hl : ∀ c ∈ lead, isReadable c = true) :
    ∀ items : List Outline, SoundItems items →
      ∀ c ∈ writeItems lead indent items, isReadable c = true
  | [], _, _, hc => nomatch hc
  | item :: rest, h, c, hc => by
    simp only [writeItems, List.append_assoc, List.mem_append, List.cons_append, List.mem_cons] at hc
    rcases hc with hc | rfl | hc | hc
    · exact hl c hc
    · decide
    · exact readable_write .item _ item h.1 c hc
    · exact readable_writeItems indent (readable_spaces indent) rest h.2 c hc

theorem readable_writeEntries (indent : Nat) {lead : Text}
    (hl : ∀ c ∈ lead, isReadable c = true) :
    ∀ entries : List (Word × Outline), SoundEntries entries →
      ∀ c ∈ writeEntries lead indent entries, isReadable c = true
  | [], _, _, hc => nomatch hc
  | (key, value) :: rest, h, c, hc => by
    simp only [writeEntries, List.append_assoc, List.mem_append, List.cons_append, List.mem_cons]
      at hc
    rcases hc with hc | hc | rfl | hc | hc
    · exact hl c hc
    · exact Word.readable h.1.1 c hc
    · decide
    · exact readable_write .value _ value h.2.1 c hc
    · exact readable_writeEntries indent (readable_spaces indent) rest h.2.2 c hc

end

end Outline

end ModernControls.Yaml
