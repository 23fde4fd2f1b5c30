import ModernControls.Moment
import ModernControls.Table

/-!
# Tags

A tag says what a node holds. The tag of a plain scalar follows from its text: it is that of a
number, a truth value and so on if the text is written like one, else that of a string.
-/

namespace ModernControls.Yaml

/-- What a node holds. -/
inductive Tag
  | null
  | bool
  | int
  | float
  | binary
  | timestamp
  | omap
  | pairs
  | set
  | str
  | seq
  | map
  | merge
  | value
  | other (name : Text)
  deriving DecidableEq, Repr, Inhabited

namespace Tag

/-- How the names of the common tags begin. -/
def commonStart : Text := "tag:yaml.org,2002:".toList

/-- The common tags and what their names end with. -/
def common : List (Text × Tag) :=
  [("null".toList, .null), ("bool".toList, .bool), ("int".toList, .int),
    ("float".toList, .float), ("binary".toList, .binary), ("timestamp".toList, .timestamp),
    ("omap".toList, .omap), ("pairs".toList, .pairs), ("set".toList, .set),
    ("str".toList, .str), ("seq".toList, .seq), ("map".toList, .map),
    ("merge".toList, .merge), ("value".toList, .value)]

/-- The tag with a name. -/
def ofText (name : Text) : Tag :=
  match (Text.after? commonStart name).bind (Table.get? common) with
  | some tag => tag
  | none => .other name

/-- What the name of a common tag ends with. -/
def ending? (tag : Tag) : Option Text := (common.find? (·.2 = tag)).map (·.1)

/-- The name of a tag. -/
def text (tag : Tag) : Text :=
  match tag with
  | .other name => name
  | tag => commonStart ++ tag.ending?.getD []

/-! ## Tags of plain scalars -/

/-- Which plain scalars have tags of their own beyond those of numbers, truth values, nothing and
merging: with `full`, also dates and the equality sign.
mirrors `_DROPPED_RESOLVERS` and `_TreeLoader` (dialect.structural 16-45) -/
inductive Schema
  | full
  | reduced
  deriving DecidableEq, Repr

/-- The words for truth values. -/
def truthWords : List (Text × Bool) :=
  [("yes".toList, true), ("Yes".toList, true), ("YES".toList, true), ("no".toList, false),
    ("No".toList, false), ("NO".toList, false), ("true".toList, true), ("True".toList, true),
    ("TRUE".toList, true), ("false".toList, false), ("False".toList, false),
    ("FALSE".toList, false), ("on".toList, true), ("On".toList, true), ("ON".toList, true),
    ("off".toList, false), ("Off".toList, false), ("OFF".toList, false)]

/-- The words for nothing. -/
def nullWords : List Text := [['~'], "null".toList, "Null".toList, "NULL".toList]

/-- A digit or a low line. -/
def isDigitOrLine (c : Char) : Bool := isAsciiDigit c || c = '_'

/-- A text without a sign before it. -/
def unsigned (text : Text) : Text := (takeSign text).2

/-- What follows a number in base sixty at the start of a text: a colon and a number below sixty,
once or more. -/
def afterSixties : Nat → Text → Option Text
  | 0, _ => none
  | budget + 1, text =>
    match text with
    | ':' :: rest =>
      let run := rest.takeWhile isAsciiDigit
      let after := rest.drop run.length
      let fits := match run with
        | [_] => true
        | [ten, _] => ten ≤ '5'
        | _ => false
      if fits then (if after.head? = some ':' then afterSixties budget after else some after)
      else none
    | _ => none

/-- Whether a text without its sign is written like an integer. -/
def isUnsignedInt (text : Text) : Bool :=
  match text with
  | '0' :: rest =>
    rest.isEmpty
      || (rest.all fun c => ('0' ≤ c && c ≤ '7') || c = '_')
      || match rest with
        | 'b' :: bits => !bits.isEmpty && bits.all fun c => c = '0' || c = '1' || c = '_'
        | 'x' :: digits =>
          !digits.isEmpty && digits.all fun c => (hexValue? c).isSome && c.toNat < 0x80 || c = '_'
        | _ => false
  | c :: rest =>
    isAsciiDigit c
      && (let after := rest.dropWhile isDigitOrLine
        after.isEmpty || afterSixties after.length after = some [])
  | [] => false

/-- Whether a text is an exponent with its sign, or nothing. -/
def isExponentOrNothing (text : Text) : Bool :=
  match text with
  | [] => true
  | e :: s :: digits =>
    (e = 'e' || e = 'E') && (s = '+' || s = '-') && !digits.isEmpty && digits.all isAsciiDigit
  | _ => false

/-- Whether a text without its sign is written like a fraction that begins with a digit. -/
def isUnsignedFraction (text : Text) : Bool :=
  match text with
  | c :: rest =>
    isAsciiDigit c
      && (match rest.dropWhile isDigitOrLine with
        | '.' :: part => isExponentOrNothing (part.dropWhile isDigitOrLine)
        | after =>
          match afterSixties after.length after with
          | some ('.' :: part) => part.all isDigitOrLine
          | _ => false)
  | [] => false

/-- Whether a text is written like a number that may be a fraction. -/
def isFraction (text : Text) : Bool :=
  isUnsignedFraction (unsigned text)
    || ["inf".toList, "Inf".toList, "INF".toList].any (fun w => unsigned text = '.' :: w)
    || ["nan".toList, "NaN".toList, "NAN".toList].any (fun w => text = '.' :: w)
    || match text with
      | '.' :: c :: rest => isAsciiDigit c && isExponentOrNothing (rest.dropWhile isDigitOrLine)
      | _ => false

/-- The tag of a plain scalar without a line feed at its end.
mirrors `resolve` of the YAML library -/
def ofWord (schema : Schema) (text : Text) : Tag :=
  if (truthWords.any (·.1 = text)) then .bool
  else if isFraction text then .float
  else if isUnsignedInt (unsigned text) then .int
  else if text = ['<', '<'] then .merge
  else if nullWords.contains text then .null
  else if schema = .full ∧ Moment.isImplicit text then .timestamp
  else if schema = .full ∧ text = ['='] then .value
  else if [['!'], ['&'], ['*']].contains text then .other (commonStart ++ "yaml".toList)
  else .str

/-- The tag of a plain scalar. -/
def ofScalar (schema : Schema) (text : Text) : Tag :=
  if text.isEmpty then .null
  else if text.length ≥ 2 ∧ text.getLast? = some '\n' then ofWord schema text.dropLast
  else ofWord schema text

end Tag

end ModernControls.Yaml
