import ModernControls.Yaml.Token.Tag

/-!
# The tokens of a text

A text is read token by token. Whether a scalar is the key of a mapping shows only when a colon
follows, so a place where a key may begin is remembered, and a key token is put in there later.
A key is given up at the end of its line or after 1024 characters.

A fault ends the reading, but the tokens before it can be used: all of them, or those before the
first one that might still turn out to begin a key.

Results:
- `run_succ`: the tokens from a state on are those of its first step and of what follows.
-/

namespace ModernControls.Yaml

/-- The tokens that can be used and what ends the reading after them. -/
structure TokenStream where
  tokens : List Token
  failure : Option Error

/-- A place where a key may begin: the depth of flow collections, the number of the token that it
begins with, whether it must be a key, and its mark. -/
structure PossibleKey where
  depth : Nat
  token : Nat
  required : Bool
  mark : Mark
  deriving DecidableEq, Repr

/-- The state of the reading. The last token comes first; indentations are columns, with -1 outside
of all blocks. -/
structure Lexer where
  cursor : Cursor
  tokens : List Token
  count : Nat
  indent : Int
  outer : List Int
  depth : Nat
  keyAllowed : Bool
  keys : List PossibleKey

namespace Lexer

/-- The longest way from the start of a key to its colon. -/
def keyReach : Nat := 1024

/-- The state at the start of a text. -/
def start (text : Text) : Lexer where
  cursor := .start text
  tokens := [⟨.streamStart, ⟨0, 0, 0⟩, ⟨0, 0, 0⟩⟩]
  count := 1
  indent := -1
  outer := []
  depth := 0
  keyAllowed := true
  keys := []

/-- The place of the cursor. -/
def mark (s : Lexer) : Mark := s.cursor.mark

/-- The column of the cursor. -/
def column (s : Lexer) : Int := s.cursor.column

/-- A token at the end. -/
def push (s : Lexer) (token : Token) : Lexer :=
  { s with tokens := token :: s.tokens, count := s.count + 1 }

/-- A token without extent at the end. -/
def pushEmpty (s : Lexer) (kind : TokenKind) (mark : Mark) : Lexer := s.push ⟨kind, mark, mark⟩

/-- A token before the one with a number. -/
def insertAt (s : Lexer) (number : Nat) (token : Token) : Lexer :=
  let after := s.count - number
  { s with
    tokens := s.tokens.take after ++ token :: s.tokens.drop after
    count := s.count + 1 }

/-- A token of a number of characters at the cursor, which moves past them. -/
def pushHere (s : Lexer) (kind : TokenKind) (length : Nat) : Lexer :=
  let c := s.cursor.advance length
  { s.push ⟨kind, s.mark, c.mark⟩ with cursor := c }

/-! ## Possible keys -/

/-- The fault of a key without a colon. -/
def noColon {α : Type} (s : Lexer) (key : PossibleKey) : Reading α :=
  (Fault.during .simpleKey key.mark .noColon s.mark).raise

/-- Whether a key can no longer reach its colon. -/
def isStale (s : Lexer) (key : PossibleKey) : Bool :=
  key.mark.line ≠ s.cursor.line || keyReach < s.cursor.index - key.mark.index

/-- Keys that cannot reach a colon are given up.
mirrors `stale_possible_simple_keys` of the YAML library -/
def dropStale (s : Lexer) : Reading Lexer :=
  match s.keys.find? fun key => s.isStale key && key.required with
  | some key => s.noColon key
  | none => .ok { s with keys := s.keys.filter (!s.isStale ·) }

/-- The key of the present depth is given up. -/
def dropKey (s : Lexer) : Reading Lexer :=
  match s.keys.find? (·.depth = s.depth) with
  | some key =>
    if key.required then s.noColon key
    else .ok { s with keys := s.keys.filter (·.depth ≠ s.depth) }
  | none => .ok s

/-- A key may begin with the next token.
mirrors `save_possible_simple_key` of the YAML library -/
def saveKey (s : Lexer) : Reading Lexer :=
  if s.keyAllowed then do
    let required := s.depth = 0 && s.indent = s.column
    let s ← s.dropKey
    .ok { s with keys := ⟨s.depth, s.count, required, s.mark⟩ :: s.keys }
  else .ok s

/-! ## Indentation -/

/-- How many blocks end at a column, and the indentation that is left. -/
def closing (column : Int) : Int → List Int → Nat × Int × List Int
  | indent, [] => (0, indent, [])
  | indent, parent :: outer =>
    if column < indent then
      let (n, rest) := closing column parent outer
      (n + 1, rest)
    else (0, indent, parent :: outer)

/-- Blocks that are indented more than a column end.
mirrors `unwind_indent` of the YAML library -/
def unwind (s : Lexer) (column : Int) : Lexer :=
  if s.depth ≠ 0 then s
  else
    let (n, indent, outer) := closing column s.indent s.outer
    let ends := List.replicate n (⟨.blockEnd, s.mark, s.mark⟩ : Token)
    { s with
      tokens := ends ++ s.tokens
      count := s.count + n
      indent := indent
      outer := outer }

/-- A block at a column begins, unless there is one at that column.
mirrors `add_indent` of the YAML library -/
def indentTo (s : Lexer) (column : Int) : Lexer × Bool :=
  if s.indent < column then ({ s with indent := column, outer := s.indent :: s.outer }, true)
  else (s, false)

/-- A block at the cursor begins, unless there is one at its column. -/
def openBlock (s : Lexer) (kind : TokenKind) : Lexer :=
  let (s, isNew) := s.indentTo s.column
  if isNew then s.pushEmpty kind s.mark else s

/-! ## Tokens -/

/-- Spaces, comments and line breaks up to the next token.
mirrors `scan_to_next_token` of the YAML library -/
def skipToToken : Nat → Lexer → Lexer
  | 0, s => s
  | budget + 1, s =>
    let c := s.cursor.skipSpaces
    let c := if c.peek = '#' then c.skipLine else c
    if isBreak c.peek then
      skipToToken budget
        { s with cursor := c.takeBreak.2, keyAllowed := s.keyAllowed || s.depth = 0 }
    else { s with cursor := c }

/-- A byte order mark at the start of the text is passed over. -/
def skipByteOrderMark (s : Lexer) : Lexer :=
  if s.cursor.index = 0 ∧ s.cursor.peek = '\uFEFF' then { s with cursor := s.cursor.next } else s

/-- The end of the text. -/
def streamEnd (s : Lexer) : Reading Lexer := do
  let s ← (s.unwind (-1)).dropKey
  .ok { s.pushEmpty .streamEnd s.mark with keyAllowed := false, keys := [] }

/-- A directive. -/
def directive (s : Lexer) : Reading Lexer := do
  let s ← (s.unwind (-1)).dropKey
  let (token, c) ← Name.directive s.cursor
  .ok { s.push token with cursor := c, keyAllowed := false }

/-- The start or the end of a document. -/
def documentIndicator (s : Lexer) (kind : TokenKind) : Reading Lexer := do
  let s ← (s.unwind (-1)).dropKey
  .ok { s.pushHere kind 3 with keyAllowed := false }

/-- The start of a flow collection. -/
def flowStart (s : Lexer) (kind : TokenKind) : Reading Lexer := do
  let s ← s.saveKey
  .ok { s.pushHere kind 1 with depth := s.depth + 1, keyAllowed := true }

/-- The end of a flow collection. -/
def flowEnd (s : Lexer) (kind : TokenKind) : Reading Lexer := do
  let s ← s.dropKey
  .ok { s.pushHere kind 1 with depth := s.depth - 1, keyAllowed := false }

/-- A comma in a flow collection. -/
def flowEntry (s : Lexer) : Reading Lexer := do
  let s ← s.dropKey
  .ok { s.pushHere .flowEntry 1 with keyAllowed := true }

/-- The hyphen before an entry of a block sequence.
mirrors `fetch_block_entry` of the YAML library -/
def blockEntry (s : Lexer) : Reading Lexer := do
  let s ←
    if s.depth ≠ 0 then .ok s
    else if !s.keyAllowed then (Fault.alone .entryNotAllowed s.mark).raise
    else .ok (s.openBlock .blockSequenceStart)
  let s ← s.dropKey
  .ok { s.pushHere .blockEntry 1 with keyAllowed := true }

/-- The question mark before a key.
mirrors `fetch_key` of the YAML library -/
def explicitKey (s : Lexer) : Reading Lexer := do
  let s ←
    if s.depth ≠ 0 then .ok s
    else if !s.keyAllowed then (Fault.alone .keyNotAllowed s.mark).raise
    else .ok (s.openBlock .blockMappingStart)
  let s ← s.dropKey
  .ok { s.pushHere .key 1 with keyAllowed := s.depth = 0 }

/-- A colon after a possible key: the key token is put in before it. -/
def valueOfKey (s : Lexer) (key : PossibleKey) : Lexer :=
  let s := { s with keys := s.keys.filter (·.depth ≠ s.depth) }
  let s := s.insertAt key.token ⟨.key, key.mark, key.mark⟩
  let s :=
    if s.depth ≠ 0 then s
    else
      let (s, isNew) := s.indentTo key.mark.column
      if isNew then s.insertAt key.token ⟨.blockMappingStart, key.mark, key.mark⟩ else s
  { s with keyAllowed := false }

/-- A colon without a key before it on its line. -/
def valueAlone (s : Lexer) : Reading Lexer := do
  let s ←
    if s.depth ≠ 0 then .ok s
    else if !s.keyAllowed then (Fault.alone .valueNotAllowed s.mark).raise
    else .ok (s.openBlock .blockMappingStart)
  let s ← s.dropKey
  .ok { s with keyAllowed := s.depth = 0 }

/-- The colon before a value.
mirrors `fetch_value` of the YAML library -/
def value (s : Lexer) : Reading Lexer := do
  let s ← match s.keys.find? (·.depth = s.depth) with
    | some key => .ok (s.valueOfKey key)
    | none => s.valueAlone
  .ok (s.pushHere .value 1)

/-- A token that may begin a key: an anchor, an alias, a tag or a flow scalar. -/
def keyPart (s : Lexer) (read : Cursor → Reading (Token × Cursor)) : Reading Lexer := do
  let s ← s.saveKey
  let (token, c) ← read s.cursor
  .ok { s.push token with cursor := c, keyAllowed := false }

/-- A block scalar. -/
def blockScalar (s : Lexer) (isFolded : Bool) : Reading Lexer := do
  let s ← s.dropKey
  let (token, c) ← Scalar.block isFolded (s.indent + 1).toNat s.cursor
  .ok { s.push token with cursor := c, keyAllowed := true }

/-- A plain scalar. -/
def plainScalar (s : Lexer) : Reading Lexer := do
  let s ← s.saveKey
  let (token, lineEnded, c) := Scalar.plain (s.depth ≠ 0) (s.indent + 1).toNat s.cursor
  .ok { s.push token with cursor := c, keyAllowed := lineEnded }

/-- The characters that begin a plain scalar only in some places, or never. -/
def indicators : List Char :=
  ['-', '?', ':', ',', '[', ']', '\x7b', '\x7d', '#', '&', '*', '!', '|', '>', '\'', '"', '%',
    '@', '\x60']

/-- Whether a plain scalar begins at the cursor.
mirrors `check_plain` of the YAML library -/
def atPlain (s : Lexer) : Bool :=
  let ch := s.cursor.peek
  (!isGapBreakOrEnd ch && !indicators.contains ch)
    || (!isGapBreakOrEnd (s.cursor.peekAt 1)
      && (ch = '-' || (s.depth = 0 && (ch = '?' || ch = ':'))))

/-- The token at the cursor.
mirrors `fetch_more_tokens` of the YAML library -/
def token (s : Lexer) : Reading Lexer :=
  let c := s.cursor
  let ch := c.peek
  let separated := isGapBreakOrEnd (c.peekAt 1)
  if ch = '%' ∧ c.column = 0 then s.directive
  else if c.column = 0 ∧ c.atTriple '-' then s.documentIndicator .documentStart
  else if c.column = 0 ∧ c.atTriple '.' then s.documentIndicator .documentEnd
  else if ch = '[' then s.flowStart .flowSequenceStart
  else if ch = '\x7b' then s.flowStart .flowMappingStart
  else if ch = ']' then s.flowEnd .flowSequenceEnd
  else if ch = '\x7d' then s.flowEnd .flowMappingEnd
  else if ch = ',' then s.flowEntry
  else if ch = '-' ∧ separated then s.blockEntry
  else if ch = '?' ∧ (s.depth ≠ 0 ∨ separated) then s.explicitKey
  else if ch = ':' ∧ (s.depth ≠ 0 ∨ separated) then s.value
  else if ch = '*' then s.keyPart (Name.anchor true)
  else if ch = '&' then s.keyPart (Name.anchor false)
  else if ch = '!' then s.keyPart Name.tag
  else if ch = '|' ∧ s.depth = 0 then s.blockScalar false
  else if ch = '>' ∧ s.depth = 0 then s.blockScalar true
  else if ch = '\'' then s.keyPart (Scalar.quoted .single)
  else if ch = '"' then s.keyPart (Scalar.quoted .double)
  else if s.atPlain then s.plainScalar
  else .error (.fault ⟨some ⟨.nextToken, none⟩, .cannotStart ch, s.mark⟩)

/-- One token more, or the end of the text. -/
def step (s : Lexer) : Reading (Lexer × Bool) := do
  let s := skipToToken (s.cursor.rest.length + 1) s.skipByteOrderMark
  let s ← s.dropStale
  let s := s.unwind s.column
  if s.cursor.peek = endChar then do
    let s ← s.streamEnd
    .ok (s, true)
  else do
    let s ← s.token
    let s ← s.dropStale
    .ok (s, false)

/-- The tokens that can be used although the reading stops: those before the first possible
key. -/
def usable (s : Lexer) : List Token :=
  let tokens := s.tokens.reverse
  match (s.keys.map (·.token)).min? with
  | some first => tokens.take first
  | none => tokens

/-- The tokens from a state on. -/
def run : Nat → Lexer → TokenStream
  | 0, s => ⟨s.tokens.reverse, none⟩
  | budget + 1, s =>
    match s.step with
    | .error failure => ⟨s.usable, some failure⟩
    | .ok (s, true) => ⟨s.tokens.reverse, none⟩
    | .ok (s, false) => run budget s

theorem run_succ (budget : Nat) (s : Lexer) :
    run (budget + 1) s = match s.step with
      | .error failure => ⟨s.usable, some failure⟩
      | .ok (s, true) => ⟨s.tokens.reverse, none⟩
      | .ok (s, false) => run budget s := by
  exact rfl

end Lexer

/-- The tokens of a text. -/
def TokenStream.ofText (text : Text) : TokenStream :=
  match firstUnreadable? text with
  | some (index, c) => ⟨[], some (.unreadable index c)⟩
  | none => Lexer.run (text.length + 2) (.start text)

end ModernControls.Yaml
