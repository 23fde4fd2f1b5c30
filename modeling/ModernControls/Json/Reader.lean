import ModernControls.Decimal.Reading
import ModernControls.Json.Value

/-!
# Reading JSON text

JSON text is read into values. Besides the standard, the names `NaN`, `Infinity` and `-Infinity`
are read as numbers. A field that comes again replaces the value and keeps the place of the first.
A fault says where it is: as a line, a column and a number of characters from the start.

The readers work on what is left of the text; a fault notes how many characters are left there,
which gives its place once the whole length is known.

Results:
- `members`, `items` and `value` are total: their budget is the length of the text, and every step
  takes at least one character.
-/

namespace ModernControls.Json

/-- What can be wrong with JSON text. -/
inductive Problem
  | noValue
  | noName
  | noColon
  | noComma
  | extraData
  | openText
  | controlCharacter
  | unknownEscape
  | badUnit
  | byteOrderMark
  deriving DecidableEq, Repr

/-- The words for a problem. -/
def Problem.text : Problem → Text
  | .noValue => "Expecting value".toList
  | .noName => "Expecting property name enclosed in double quotes".toList
  | .noColon => "Expecting ':' delimiter".toList
  | .noComma => "Expecting ',' delimiter".toList
  | .extraData => "Extra data".toList
  | .openText => "Unterminated string starting at".toList
  | .controlCharacter => "Invalid control character at".toList
  | .unknownEscape => "Invalid \\escape".toList
  | .badUnit => "Invalid \\uXXXX escape".toList
  | .byteOrderMark => "Unexpected UTF-8 BOM (decode using utf-8-sig)".toList

/-- Why text is not read: a problem with a number of characters left where it is, or an integer
with more digits than any reader takes. -/
inductive Failure
  | fault (problem : Problem) (left : Nat)
  | longInteger
  deriving DecidableEq, Repr

/-- A problem at the start of a text. -/
def faultAt {α : Type} (problem : Problem) (rest : Text) : Except Failure α :=
  .error (.fault problem rest.length)

/-- Whether a character may stand between the parts of JSON text. -/
def isSpace (c : Char) : Bool := c = ' ' || c = '\t' || c = '\n' || c = '\r'

/-- A text without the space it begins with. -/
def skipSpace (text : Text) : Text := text.dropWhile isSpace

/-- The character for a letter after a backslash. -/
def escaped? (c : Char) : Option Char :=
  if c = '"' ∨ c = '\\' ∨ c = '/' then some c
  else if c = 'b' then some '\x08'
  else if c = 'f' then some '\x0C'
  else if c = 'n' then some '\n'
  else if c = 'r' then some '\r'
  else if c = 't' then some '\t'
  else none

/-- The value of four hexadecimal digits of ASCII. -/
def unit? (digits : Text) : Option Nat :=
  if digits.length = 4 ∧ digits.all (·.toNat < 0x80) then natIn? 16 digits else none

/-- The character that a unit in the upper and one in the lower surrogate range stand for. -/
def joinUnits (high low : Nat) : Char :=
  Char.ofNat (0x10000 + (high - 0xD800) * 0x400 + (low - 0xDC00))

/-- The lower half that may follow an upper half, and what is left after it. -/
def lowerHalf (text : Text) : Except Failure (Option Nat × Text) :=
  match text with
  | '\\' :: 'u' :: rest =>
    if rest.length < 5 then .ok (none, text)
    else match unit? (rest.take 4) with
      | none => faultAt .badUnit ('u' :: rest)
      | some low =>
        if 0xDC00 ≤ low ∧ low ≤ 0xDFFF then .ok (some low, rest.drop 4) else .ok (none, text)
  | _ => .ok (none, text)

/-- A text up to its closing quotation mark; `whole` is the text from the opening one on. -/
def textBody (whole : Text) : Nat → Text → Except Failure (Text × Text)
  | 0, _ => faultAt .openText whole
  | budget + 1, text =>
    match text with
    | [] => faultAt .openText whole
    | '"' :: rest => .ok ([], rest)
    | '\\' :: [] => faultAt .openText whole
    | '\\' :: 'u' :: rest =>
      if rest.length < 5 then faultAt .badUnit ('u' :: rest)
      else match unit? (rest.take 4) with
        | none => faultAt .badUnit ('u' :: rest)
        | some unit => do
          let after := rest.drop 4
          let (low, after) ←
            if 0xD800 ≤ unit ∧ unit ≤ 0xDBFF then lowerHalf after else .ok (none, after)
          let c := match low with
            | some low => joinUnits unit low
            | none => Char.ofNat unit
          let (body, after) ← textBody whole budget after
          .ok (c :: body, after)
    | '\\' :: letter :: rest =>
      match escaped? letter with
      | none => faultAt .unknownEscape text
      | some c => do
        let (body, after) ← textBody whole budget rest
        .ok (c :: body, after)
    | c :: rest =>
      if c.toNat < 0x20 then faultAt .controlCharacter text
      else do
        let (body, after) ← textBody whole budget rest
        .ok (c :: body, after)

/-- A text that follows its opening quotation mark.
mirrors `scanstring` of the JSON library -/
def readText (rest : Text) : Except Failure (Text × Text) :=
  textBody ('"' :: rest) (rest.length + 1) rest

/-- The sign of a number, if there is one, and what follows it. -/
def signPart (text : Text) : Text × Text :=
  match text with
  | '-' :: rest => (['-'], rest)
  | _ => ([], text)

/-- The digits of a number before its point: a zero alone, or all digits there are. -/
def wholePart (text : Text) : Text × Text :=
  match text with
  | '0' :: rest => (['0'], rest)
  | _ => (text.takeWhile isAsciiDigit, text.dropWhile isAsciiDigit)

/-- The part of a number after its point, with the point; nothing if no digit follows. -/
def fractionPart (text : Text) : Text × Text :=
  match text with
  | '.' :: rest =>
    let digits := rest.takeWhile isAsciiDigit
    if digits.isEmpty then ([], text) else ('.' :: digits, rest.dropWhile isAsciiDigit)
  | _ => ([], text)

/-- The exponent of a number; nothing if no digit follows. -/
def exponentPart (text : Text) : Text × Text :=
  match text with
  | e :: rest =>
    if e = 'e' ∨ e = 'E' then
      let (sign, rest') := match rest with
        | c :: more => if c = '+' ∨ c = '-' then ([c], more) else ([], rest)
        | [] => ([], [])
      let digits := rest'.takeWhile isAsciiDigit
      if digits.isEmpty then ([], text)
      else (e :: sign ++ digits, rest'.dropWhile isAsciiDigit)
    else ([], text)
  | [] => ([], [])

/-- A number at the start of a text.
mirrors `match_number` of the JSON library -/
def readNumber (text : Text) : Except Failure (Json × Text) :=
  let (sign, body) := signPart text
  let (whole, rest) := wholePart body
  if whole.isEmpty then faultAt .noValue text
  else
    let (fraction, rest) := fractionPart rest
    let (exponent, rest) := exponentPart rest
    if fraction.isEmpty ∧ exponent.isEmpty then
      match integer? 10 (sign ++ whole) with
      | some n => .ok (.int n, rest)
      | none => .error .longInteger
    else match fraction? (sign ++ whole ++ fraction ++ exponent) with
      | some x => .ok (.float x, rest)
      | none => faultAt .noValue text

/-- The fixed words and what they stand for. -/
def words : List (Text × Json) :=
  [("null".toList, .null), ("true".toList, .bool true), ("false".toList, .bool false),
    ("NaN".toList, .float .nan), ("Infinity".toList, .float (.infinite false)),
    ("-Infinity".toList, .float (.infinite true))]

/-- A fixed word or a number at the start of a text. -/
def readWord (text : Text) : Except Failure (Json × Text) :=
  match words.findSome? fun (word, value) => (Text.after? word text).map (value, ·) with
  | some found => .ok found
  | none => readNumber text

mutual

/-- A value at the start of a text. -/
def value : Nat → Text → Except Failure (Json × Text)
  | 0, text => faultAt .noValue text
  | budget + 1, text =>
    match text with
    | '"' :: rest => do
      let (body, rest) ← readText rest
      .ok (.string body, rest)
    | '\x7b' :: rest =>
      match skipSpace rest with
      | '\x7d' :: rest => .ok (.object [], rest)
      | rest => members budget [] rest
    | '[' :: rest =>
      match skipSpace rest with
      | ']' :: rest => .ok (.array [], rest)
      | rest => items budget [] rest
    | _ => readWord text

/-- The fields that are still to come, with those read so far. -/
def members : Nat → Table Json → Text → Except Failure (Json × Text)
  | 0, _, text => faultAt .noName text
  | budget + 1, done, text =>
    match text with
    | '"' :: rest => do
      let (key, rest) ← readText rest
      match skipSpace rest with
      | ':' :: rest => do
        let (field, rest) ← value budget (skipSpace rest)
        let done := done.insert key field
        match skipSpace rest with
        | '\x7d' :: rest => .ok (.object done, rest)
        | ',' :: rest => members budget done (skipSpace rest)
        | rest => faultAt .noComma rest
      | rest => faultAt .noColon rest
    | _ => faultAt .noName text

/-- The items that are still to come, with those read so far, the last one first. -/
def items : Nat → List Json → Text → Except Failure (Json × Text)
  | 0, _, text => faultAt .noValue text
  | budget + 1, done, text => do
    let (item, rest) ← value budget text
    match skipSpace rest with
    | ']' :: rest => .ok (.array (item :: done).reverse, rest)
    | ',' :: rest => items budget (item :: done) (skipSpace rest)
    | rest => faultAt .noComma rest

end

/-- The value that a whole text holds.
mirrors `loads` of the JSON library -/
def parse (text : Text) : Except Failure Json :=
  match text with
  | '\uFEFF' :: _ => faultAt .byteOrderMark text
  | _ => do
    let (found, rest) ← value (text.length + 1) (skipSpace text)
    match skipSpace rest with
    | [] => .ok found
    | rest => faultAt .extraData rest

/-- The words for a problem together with its place in the text. -/
def faultMessage (source : Text) (problem : Problem) (left : Nat) : Text :=
  let place := source.length - left
  let before := source.take place
  let line := before.count '\n' + 1
  let column := (before.reverse.takeWhile (· ≠ '\n')).length + 1
  problem.text ++ ": line ".toList ++ Text.ofNat line ++ " column ".toList ++ Text.ofNat column
    ++ " (char ".toList ++ Text.ofNat place ++ [')']

end ModernControls.Json
