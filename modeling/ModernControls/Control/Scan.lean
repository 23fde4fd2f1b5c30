import ModernControls.Control.Property
import ModernControls.Control.Reading
import ModernControls.Decimal.Reading

/-!
# Scanning control texts

Quick looks at a text without reading all of it: the first declaration of a control, the first
section of properties, and whether the text looks like a control document.
-/

namespace ModernControls

/-- A control as it is declared: its name and its type.
mirrors `ControlInfo` (model.lib 211-225) -/
structure Declaration where
  name : Text
  bareType : Text
  version : Option Text
  deriving DecidableEq, Repr

namespace Declaration

/-- The type of a declared control as written. -/
def fullType (d : Declaration) : Text := TypeToken.join d.bareType d.version

/-- Whether a character may stand in the name of a type. -/
def isTypeChar (c : Char) : Bool := c ≠ '@' && !isBlank c && c ≠ '"' && c ≠ '\''

/-- Whether a character may stand in a version. -/
def isVersionChar (c : Char) : Bool := isDecimalDigit c || c = '.'

/-- A text without one quotation mark at its start. -/
def skipQuote : Text → Text
  | c :: rest => if c = '"' ∨ c = '\'' then rest else c :: rest
  | [] => []

/-- Whether nothing but spaces and tabs stands before the end of the line. -/
def endsLine (text : Text) : Bool :=
  match text.dropWhile isSpaceOrTab with
  | [] => true
  | c :: _ => c = '\n'

/-- The type and version at the start of a text, if the line ends after them.
mirrors `_CONTROL_DECLARATION` (dialect.lib 47-48) -/
def typeAt (text : Text) : Option (Text × Option Text) :=
  let type := text.takeWhile isTypeChar
  if type.isEmpty then none
  else match text.dropWhile isTypeChar with
    | '@' :: rest =>
      let version := rest.takeWhile isVersionChar
      if !version.isEmpty && endsLine (skipQuote (rest.dropWhile isVersionChar)) then
        some (type, some version)
      else none
    | rest => if endsLine (skipQuote rest) then some (type, none) else none

/-- Whether the name of a control may begin with a character. -/
def startsName (c : Char) : Bool := !isBlank c && c ≠ ':' && c ≠ '#' && c ≠ '-'

/-- The name of a control on a line that holds nothing else, and what follows the line.
mirrors `_CONTROL_DECLARATION` (dialect.lib 46) -/
def nameLine (text : Text) : Option (Text × Text) :=
  match (Formula.indentOf text).2 with
  | c :: rest =>
    if startsName c then
      let more := rest.takeWhile fun c => c ≠ ':' && c ≠ '\n'
      match rest.drop more.length with
      | ':' :: after =>
        match after.dropWhile isSpaceOrTab with
        | '\n' :: below => some (c :: more, below)
        | _ => none
      | _ => none
    else none
  | [] => none

/-- The declaration at the start of a line: a name, and on the next line that is not blank a
type. -/
def atLine (text : Text) : Option Declaration := do
  let (name, below) ← nameLine text
  let rest ← Text.after? (typeKey ++ [':']) below.trimStart
  let (type, version) ← typeAt (skipQuote (rest.dropWhile isSpaceOrTab))
  some ⟨name.trim.unquote, type, version⟩

/-- The first declaration in a text; `atStart` says whether a line begins. -/
def first (atStart : Bool) : Text → Option Declaration
  | [] => none
  | c :: rest =>
    match (if atStart then atLine (c :: rest) else none) with
    | some d => some d
    | none => first (c = '\n') rest

/-- The control that a text declares first.
mirrors `extract_control_info` (dialect.lib 314-337) -/
def scan (text : Text) : Option Declaration := first true text.pairsToFeeds

end Declaration

namespace Properties

/-- Whether a line begins the properties of a control.
mirrors `_PROPERTIES_LINE` (dialect.lib 51) -/
def startsSection (line : Text) : Bool :=
  match Text.after? (propertiesKey ++ [':']) (line.dropWhile isSpaceOrTab) with
  | some rest => rest.all isSpaceOrTab
  | none => false

/-- The number of blanks that a line begins with.
mirrors `_indent_of` (dialect.lib 340-341) -/
def indentOf (line : Text) : Nat := (line.takeWhile isBlank).length

/-- Whether a text is a decimal number, perhaps with a sign and a fraction.
mirrors `_NUMBER` (dialect.lib 52) -/
def isNumber (text : Text) : Bool :=
  let digits := match text with
    | '-' :: rest => rest
    | _ => text
  let whole := digits.takeWhile isDecimalDigit
  !whole.isEmpty && match digits.drop whole.length with
    | [] => true
    | '.' :: part => !part.isEmpty && part.all isDecimalDigit
    | _ => false

/-- The number that a text stands for. -/
def numberOf (text : Text) : Except Yaml.Breakage Property :=
  if text.contains '.' then
    match fraction? text with
    | some x => .ok (.float x)
    | none => .error .number
  else match integer? 10 text with
    | some n => .ok (.int n)
    | none => .error .number

/-- Whether a text stands between two equal quotation marks. -/
def isQuoted (text : Text) : Bool :=
  match text with
  | c :: d :: rest => (c = '"' || c = '\'') && (d :: rest).getLast? = some c
  | _ => false

/-- A value as its line shows it; none for the header of a block.
mirrors `_scan_value` (dialect.lib 344-357) -/
def scanValue (value : Text) : Except Yaml.Breakage (Option Property) :=
  match value with
  | [] => .ok none
  | c :: rest =>
    if c = formulaSign then .ok (some (.formula rest))
    else if value = "true".toList then .ok (some (.bool true))
    else if value = "false".toList then .ok (some (.bool false))
    else if isNumber value then (numberOf value).map some
    else if isQuoted value then .ok (some (Property.ofText rest.dropLast))
    else if c = '|' ∨ c = '>' then .ok none
    else .ok (some (Property.ofText value))

/-- The property that a line without blanks around it holds.
mirrors `extract_properties` (dialect.lib 395-401) -/
def scanLine (line : Text) : Except Yaml.Breakage (Option (Text × Property)) :=
  match Text.cut ':' line with
  | (_, none) => .ok none
  | (key, some value) => (scanValue value.trim).map fun value => value.map (key.trim, ·)

/-- The properties on the lines of a section that are indented as the first of them is.
mirrors `extract_properties` (dialect.lib 383-401) -/
def scanLines (base : Nat) (level : Option Nat) (found : Properties) :
    List Text → Except Yaml.Breakage Properties
  | [] => .ok found
  | line :: rest =>
    let body := line.trim
    if body.isEmpty || body.head? = some '#' then scanLines base level found rest
    else
      let indent := indentOf line
      if indent ≤ base then .ok found
      else if indent = level.getD indent then do
        match ← scanLine body with
        | some (key, value) =>
          scanLines base (some (level.getD indent)) (found.insert key value) rest
        | none => scanLines base (some (level.getD indent)) found rest
      else scanLines base level found rest

/-- The properties in the first section among lines, if there is one. -/
def scanFirst : List Text → Except Yaml.Breakage (Option Properties)
  | [] => .ok none
  | line :: rest =>
    if startsSection line then (scanLines (indentOf line) none [] rest).map some
    else scanFirst rest

/-- The properties that a text shows on lines of their own.
mirrors `extract_properties` (dialect.lib 360-403) -/
def scan (text : Text) : Except Yaml.Breakage (Option Properties) :=
  scanFirst text.pairsToFeeds.lines

end Properties

namespace Document

/-- Whether a text holds both the key of a type and that of properties. -/
def hasKeys (text : Text) : Bool :=
  (typeKey ++ [':']).occursIn text && (propertiesKey ++ [':']).occursIn text

/-- The report on a text that does not look like a document; none if it does.
mirrors `validate` (dialect.lib 412-420) -/
def check (text : Text) : Except Yaml.Breakage (Option Text) :=
  if hasKeys text then .ok none
  else match treeOf text with
    | .ok _ => .ok none
    | .error (.broken b) => .error b
    | .error (.unparsed report) => .ok (some report)
    | .error _ => .ok none

/-- Whether a text looks like a document.
mirrors `validate` (dialect.lib 406-420) -/
def isDocument (text : Text) : Except Yaml.Breakage Bool := (check text).map (·.isNone)

end Document

end ModernControls
