import ModernControls.Text.Utf8
import ModernControls.Yaml.Token.Scalar

/-!
# Reading names

Anchors, aliases, tags and directives: the tokens that name something instead of holding text.
-/

namespace ModernControls.Yaml

namespace Name

/-- A letter or digit of ASCII, a hyphen or a low line. -/
def isWordChar (c : Char) : Bool :=
  ('0' ≤ c && c ≤ '9') || ('A' ≤ c && c ≤ 'Z') || ('a' ≤ c && c ≤ 'z') || c = '-' || c = '_'

/-- A character that may stand in a tag, a percent sign apart. -/
def isUriChar (c : Char) : Bool :=
  isWordChar c || [';', '/', '?', ':', '@', '&', '=', '+', '$', ',', '.', '!', '~', '*', '\'',
    '(', ')', '[', ']'].contains c

/-- A character that may follow the name of an anchor. -/
def endsAnchor (c : Char) : Bool :=
  isGapBreakOrEnd c || ['?', ':', ',', ']', '\x7d', '%', '@', '\x60'].contains c

private def refuse {α : Type} (activity : Activity) (since : Mark) (what : Expected)
    (c : Cursor) : Reading α :=
  (Fault.during activity since (.expected what c.peek) c.mark).raise

/-- An anchor or an alias at the cursor.
mirrors `scan_anchor` of the YAML library -/
def anchor (isAlias : Bool) (c : Cursor) : Reading (Token × Cursor) :=
  let since := c.mark
  let activity := if isAlias then Activity.alias else .anchor
  let c := c.next
  let name := c.run isWordChar
  if name.isEmpty then refuse activity since .alphanumeric c
  else
    let c := c.advance name.length
    if endsAnchor c.peek then
      .ok (⟨if isAlias then .alias name else .anchor name, since, c.mark⟩, c)
    else refuse activity since .alphanumeric c

/-- The bytes of percent escapes at the cursor. -/
def escapedBytes (activity : Activity) (since : Mark) :
    Nat → Cursor → Reading (List Nat × Cursor)
  | 0, c => .ok ([], c)
  | budget + 1, c =>
    if c.peek = '%' then
      let c := c.next
      match [c.peekAt 0, c.peekAt 1].find? (!Scalar.isHexDigit ·) with
      | some wrong =>
        (Fault.during activity since (.expected .uriEscape wrong) c.mark).raise
      | none => do
        let byte := (natIn? 16 (c.rest.take 2)).getD 0
        let (more, c) ← escapedBytes activity since budget (c.advance 2)
        .ok (byte :: more, c)
    else .ok ([], c)

/-- The characters that percent escapes at the cursor stand for.
mirrors `scan_uri_escapes` of the YAML library -/
def escapes (activity : Activity) (since : Mark) (c : Cursor) : Reading (Text × Cursor) := do
  let (bytes, c') ← escapedBytes activity since (c.rest.length + 1) c
  match Utf8.decode bytes with
  | .ok text => .ok (text, c')
  | .error reason => (Fault.during activity since (.undecodable reason) c.mark).raise

/-- The parts of a tag at the cursor. -/
def uriParts (activity : Activity) (since : Mark) : Nat → Cursor → Reading (Text × Cursor)
  | 0, c => .ok ([], c)
  | budget + 1, c =>
    if c.peek = '%' then do
      let (part, c) ← escapes activity since c
      let (more, c) ← uriParts activity since budget c
      .ok (part ++ more, c)
    else if isUriChar c.peek then do
      let (more, c') ← uriParts activity since budget c.next
      .ok (c.peek :: more, c')
    else .ok ([], c)

/-- A tag or the start of tags at the cursor; `inDirective` says which.
mirrors `scan_tag_uri` of the YAML library -/
def uri (inDirective : Bool) (since : Mark) (c : Cursor) : Reading (Text × Cursor) :=
  if c.peek = '%' ∨ isUriChar c.peek then
    uriParts (if inDirective then .directive else .tag) since (c.rest.length + 1) c
  else refuse (if inDirective then .directiveUri else .tagUri) since .uri c

/-- A tag handle at the cursor: an exclamation mark, or a word between two.
mirrors `scan_tag_handle` of the YAML library -/
def handle (inDirective : Bool) (since : Mark) (c : Cursor) : Reading (Text × Cursor) :=
  let activity := if inDirective then Activity.directive else .tag
  if c.peek ≠ '!' then refuse activity since .exclamation c
  else if c.peekAt 1 = ' ' then .ok (['!'], c.next)
  else
    let word := c.next.run isWordChar
    let c' := c.next.advance word.length
    if c'.peek = '!' then .ok ('!' :: word ++ ['!'], c'.next)
    else refuse activity since .exclamation c'

/-- Whether a second exclamation mark follows in the word at a cursor. -/
def hasHandle (rest : Text) : Bool :=
  (rest.takeWhile fun ch => !isSpaceBreakOrEnd ch).contains '!'

/-- A tag at the cursor.
mirrors `scan_tag` of the YAML library -/
def tag (c : Cursor) : Reading (Token × Cursor) := do
  let since := c.mark
  let (kind, c) ←
    if c.peekAt 1 = '<' then do
      let (suffix, c) ← uri false since (c.advance 2)
      if c.peek = '>' then .ok (TokenKind.tag none suffix, c.next)
      else refuse .tagUri since .closingAngle c
    else if isGapBreakOrEnd (c.peekAt 1) then .ok (TokenKind.tag none ['!'], c.next)
    else if hasHandle c.next.rest then do
      let (start, c) ← handle false since c
      let (suffix, c) ← uri false since c
      .ok (TokenKind.tag (some start) suffix, c)
    else do
      let (suffix, c) ← uri false since c.next
      .ok (TokenKind.tag (some ['!']) suffix, c)
  if isSpaceBreakOrEnd c.peek then .ok (⟨kind, since, c.mark⟩, c)
  else refuse .tag since .space c

/-- A number of a version directive at the cursor. -/
def versionNumber (since : Mark) (c : Cursor) : Reading (Nat × Cursor) :=
  let digits := c.run isAsciiDigit
  if digits.isEmpty then refuse .directive since .digit c
  else match integer? 10 digits with
    | some n => .ok (n.toNat, c.advance digits.length)
    | none => .error (.breakage .number)

/-- The two numbers of a version directive. -/
def version (since : Mark) (c : Cursor) : Reading (Directive × Cursor) := do
  let (major, c) ← versionNumber since c.skipSpaces
  if c.peek ≠ '.' then refuse .directive since .digitOrPoint c
  else do
    let (minor, c) ← versionNumber since c.next
    if isSpaceBreakOrEnd c.peek then .ok (.version major minor, c)
    else refuse .directive since .digitOrSpace c

/-- The handle and the start of tags of a tag directive. -/
def tagDirective (since : Mark) (c : Cursor) : Reading (Directive × Cursor) := do
  let (name, c) ← handle true since c.skipSpaces
  if c.peek ≠ ' ' then refuse .directive since .space c
  else do
    let (start, c) ← uri true since c.skipSpaces
    if isSpaceBreakOrEnd c.peek then .ok (.handle name start, c)
    else refuse .directive since .space c

/-- A directive at the cursor, with its line.
mirrors `scan_directive` of the YAML library -/
def directive (c : Cursor) : Reading (Token × Cursor) := do
  let since := c.mark
  let c := c.next
  let name := c.run isWordChar
  if name.isEmpty then refuse .directive since .alphanumeric c
  else
    let c := c.advance name.length
    if !isSpaceBreakOrEnd c.peek then refuse .directive since .alphanumeric c
    else do
      let (kind, c) ←
        if name = "YAML".toList then version since c
        else if name = "TAG".toList then tagDirective since c
        else .ok (Directive.other, c)
      let finish := c.mark
      let c := if kind = .other then c.skipLine else c
      let c ← Scalar.ignoredLine .directive since c
      .ok (⟨.directive kind, since, finish⟩, c)

end Name

end ModernControls.Yaml
