import ModernControls.Control.Marks
import ModernControls.Formula.Line
import ModernControls.Json.Writer
import ModernControls.Yaml.Tree.OfText

/-!
# Formula lines and YAML text

A value that begins with an equality sign is a formula. Formulas and some plain values are no YAML
scalars, so before a text is read they are put between quotation marks, a formula after a mark that
YAML text cannot hold as such. After a text is written the marked scalars become formula lines
again.

A quoted text that itself begins with the mark gets a second one, so it stays a text.

Results:
- `treatment_of_formula`: the value after an equality sign is quoted whole after the formulaMark;
- `length_escapeLines`: escaping gives one line for every line.
-/

namespace ModernControls.Formula

open Yaml

/-- Whether a text is a type with a version: after an at sign there are digits and points.
mirrors `_CONTROL_TAG` (dialect.escaper 33) -/
def isVersionedType (text : Text) : Bool :=
  match Text.cut '@' text with
  | (type, some version) =>
    !type.isEmpty && type.all (fun c => !isBlank c && c ≠ '"' && c ≠ '\'')
      && !version.isEmpty && version.all fun c => isDecimalDigit c || c = '.'
  | _ => false

/-- The words that a YAML reader takes for truth values, in lower case. -/
def truthWords : List Text :=
  ["yes".toList, "no".toList, "on".toList, "off".toList, "true".toList, "false".toList]

/-- A letter of a word whose case does not matter; the long s is an s. -/
def caseless (c : Char) : Char := if c = 'ſ' then 's' else c.toLower

/-- Whether a text would be read as a truth value but does not mean one.
mirrors `_YAML11_BOOLEAN` (dialect.escaper 34, 51) -/
def isStrayTruth (text : Text) : Bool :=
  truthWords.contains (text.map caseless) && text ≠ "true".toList && text ≠ "false".toList

/-- The characters that have a meaning in YAML text.
mirrors `_SPECIAL_CHARS` (dialect.escaper 35) -/
def specialChars : List Char :=
  [':', '\x7b', '\x7d', '[', ']', '|', '>', '*', '&', '!', '%', ',']

/-- Whether a plain value would be read as something else.
mirrors `_needs_quoting` (dialect.escaper 45-55) -/
def needsQuotes (key value : Text) : Bool :=
  match value with
  | [] => false
  | c :: _ =>
    if c = '\'' ∨ c = '"' ∨ value = ['\x7b', '\x7d'] ∨ value = ['[', ']'] then false
    else (key = typeKey && isVersionedType value) || isStrayTruth value || c = '@' || c = '\x60'
      || value.any specialChars.contains

/-- Whether a value is the header of a block of lines.
mirrors `_BLOCK_INDICATOR` (dialect.escaper 32) -/
def isBlockHeader (value : Text) : Bool :=
  match value with
  | [] => false
  | c :: rest =>
    (c = '|' || c = '>')
      && match rest.dropWhile fun c => isAsciiDigit c || c = '+' || c = '-' with
        | [] => true
        | d :: more => isSpaceOrTab d && (more.dropWhile isSpaceOrTab).head? = some '#'

/-- The text that a quoted scalar stands for, if it is one.
mirrors `_decode_quoted` (dialect.escaper 112-118) -/
def decode (quoted : Text) : Except Breakage (Option Text) :=
  match (Yaml.Tree.ofText .full quoted : Reading (Yaml.Tree Empty)) with
  | .ok (.text text _) => .ok (some text)
  | .ok _ => .ok none
  | .error (.breakage b) => .error b
  | .error _ => .ok none

/-- What becomes of a value before the text is read: it is kept, it is replaced by the quoted form
of a text, or it begins a block of lines. -/
inductive Treatment
  | keep
  | quote (text : Text)
  | block
  deriving DecidableEq, Repr

/-- What becomes of a value between double quotation marks.
mirrors `escape` (dialect.escaper 96-98) -/
def treatmentOfQuoted (value : Text) : Except Breakage Treatment := do
  match ← decode value with
  | some text => .ok (if text.head? = some formulaMark then .quote (formulaMark :: text) else .keep)
  | none => .ok .keep

/-- What becomes of a value that is no formula; `value` has no blanks at its end.
mirrors `escape` (dialect.escaper 95-107) -/
def treatmentOfPlain (key value : Text) : Except Breakage Treatment :=
  match value with
  | [] => .ok .keep
  | c :: _ =>
    if c = '"' then treatmentOfQuoted value
    else if c = '#' then .ok .keep
    else if isBlockHeader value then .ok .block
    else .ok (if needsQuotes key value then .quote value else .keep)

/-- What becomes of a value.
mirrors `escape` (dialect.escaper 91-107) -/
def treatment (key value : Text) : Except Breakage Treatment :=
  match value with
  | [] => .ok .keep
  | c :: rest =>
    if c = formulaSign then .ok (.quote (formulaMark :: rest))
    else treatmentOfPlain key value.trimEnd

/-- A line with a quoted text as its value. -/
def quotedLine (head text : Text) : Text := head ++ ':' :: ' ' :: Json.quote false text

/-- A line after its treatment, and the indentation of the block that it begins.
mirrors `escape` (dialect.escaper 82-107) -/
def escapeLine (line : Text) : Except Breakage (Text × Option Nat) :=
  match KeyLine.parse? line with
  | some ⟨indent, key, some (_, value)⟩ => do
    match ← treatment key.trim value with
    | .keep => .ok (line, none)
    | .quote text => .ok (quotedLine (indent ++ key) text, none)
    | .block => .ok (line, some indent.length)
  | _ => .ok (line, none)

/-- Whether a line belongs to a block that was begun at an indentation.
mirrors `escape` (dialect.escaper 74-80) -/
def inBlock (block : Option Nat) (line : Text) : Bool :=
  match block with
  | none => false
  | some indent => line.isAllBlank || indent < (line.takeWhile (· = ' ')).length

/-- Lines after their treatment; those of a block stay as they are. -/
def escapeLines (block : Option Nat) : List Text → Except Breakage (List Text)
  | [] => .ok []
  | line :: rest =>
    if inBlock block line then do
      let rest ← escapeLines block rest
      .ok (line :: rest)
    else do
      let (line, block) ← escapeLine line
      let rest ← escapeLines block rest
      .ok (line :: rest)

/-- A text that can be read as YAML.
mirrors `escape` (dialect.escaper 58-109) -/
def escape (text : Text) : Except Breakage Text :=
  (escapeLines none text.unifyBreaks.lines).map Text.ofLines

/-! ## Formulas in written text -/

/-- The length of a text between double quotation marks at the start of a text that follows the
opening one, without the marks. -/
def quotedLength? : Text → Option Nat
  | [] => none
  | '"' :: _ => some 0
  | '\\' :: _ :: rest => (quotedLength? rest).map (· + 2)
  | '\\' :: [] => none
  | _ :: rest => (quotedLength? rest).map (· + 1)

/-- The quoted scalar that a value consists of, blanks after it apart.
mirrors `_QUOTED_LINE` (dialect.escaper 28-31) -/
def quotedValue? (value : Text) : Option Text :=
  match value with
  | '"' :: rest =>
    match quotedLength? rest with
    | some n =>
      if (rest.drop (n + 1)).all isSpaceOrTab then some ('"' :: rest.take (n + 1)) else none
    | none => none
  | _ => none

/-- A formula of several lines as a block below its key.
mirrors `_block_formula` (dialect.escaper 121-128) -/
def blockLines (indent head formula : Text) : List Text :=
  let keeps := formula.getLast? = some '\n'
  let body := if keeps then formula.lines.dropLast else formula.lines
  let pad := Text.spaces (indent.length + 2)
  (head ++ [':', ' ', '|', if keeps then '+' else '-'])
    :: body.map fun part => if part.isEmpty then [] else pad ++ part

/-- A type as it is looked at: a line feed at its end does not count. -/
def withoutFeed (text : Text) : Text := if text.getLast? = some '\n' then text.dropLast else text

/-- The lines for a key line whose value is the quoted form of a text.
mirrors `unescape` (dialect.escaper 148-160) -/
def restoredLines (indent key line text : Text) : List Text :=
  let head := indent ++ key
  match text with
  | c :: rest =>
    if c = formulaMark then
      if rest.head? = some formulaMark then [quotedLine head rest]
      else if rest.contains '\n' then blockLines indent head (formulaSign :: rest)
      else [head ++ ':' :: ' ' :: formulaSign :: rest]
    else if key = typeKey ∧ isVersionedType (withoutFeed text) then [head ++ ':' :: ' ' :: text]
    else [line]
  | [] => [line]

/-- The lines for a written line.
mirrors `unescape` (dialect.escaper 142-160) -/
def unescapeLine (line : Text) : Except Breakage (List Text) :=
  match KeyLine.parse? line with
  | some ⟨indent, key, some (_, value)⟩ =>
    match quotedValue? value with
    | some quoted => do
      match ← decode quoted with
      | some text => .ok (restoredLines indent key line text)
      | none => .ok [line]
    | none => .ok [line]
  | _ => .ok [line]

/-- The lines for written lines. -/
def unescapeLines : List Text → Except Breakage (List Text)
  | [] => .ok []
  | line :: rest => do
    let lines ← unescapeLine line
    let rest ← unescapeLines rest
    .ok (lines ++ rest)

/-- A written text with its formulas as formula lines.
mirrors `unescape` (dialect.escaper 131-162) -/
def unescape (text : Text) : Except Breakage Text :=
  (unescapeLines text.lines).map Text.ofLines

/-! ## Laws -/

theorem treatment_of_formula (key f : Text) :
    treatment key (formulaSign :: f) = .ok (.quote (formulaMark :: f)) := by
  simp [treatment]

theorem length_escapeLines {block : Option Nat} {ls out : List Text}
    (h : escapeLines block ls = .ok out) : out.length = ls.length := by
  induction ls generalizing block out with
  | nil => cases h; rfl
  | cons l ls ih =>
    rw [escapeLines] at h
    split at h
    · cases hr : escapeLines block ls with
      | error e => rw [hr] at h; cases h
      | ok r => rw [hr] at h; cases h; simp [ih hr]
    · cases hl : escapeLine l with
      | error e => rw [hl] at h; cases h
      | ok p =>
        obtain ⟨l', b⟩ := p
        rw [hl] at h
        cases hr : escapeLines b ls with
        | error e =>
          simp only [bind, Except.bind, hr] at h
          cases h
        | ok r =>
          simp only [bind, Except.bind, hr] at h
          cases h; simp [ih hr]

end ModernControls.Formula
