import ModernControls.Yaml.Graph
import ModernControls.Yaml.Token.Stream

/-!
# Graphs of texts

The nodes of a YAML text, put together from its tokens. An alias is the number of the node with its
anchor, which is known as soon as that node begins.

A text holds no document or one. The nodes are read in the order of the tokens, so of two faults
the first in the text is found.
-/

namespace ModernControls.Yaml

/-- The state of putting nodes together. -/
structure Composer where
  tokens : List Token
  failure : Error
  schema : Tag.Schema
  handles : Table Text
  anchors : Table NodeId
  graph : Graph

/-- A step of putting nodes together. -/
abbrev Composing (α : Type) := StateT Composer (Except Error) α

namespace Composer

/-- A failed step. -/
def fail {α : Type} (error : Error) : Composing α := fun _ => .error error

/-- A step that fails by a fault. -/
def raise {α : Type} (fault : Fault) : Composing α := fail (.fault fault)

/-- The next token. -/
def peek : Composing Token := fun s =>
  match s.tokens with
  | token :: _ => .ok (token, s)
  | [] => .error s.failure

/-- The next token, which is used up. -/
def take : Composing Token := fun s =>
  match s.tokens with
  | token :: rest => .ok (token, { s with tokens := rest })
  | [] => .error s.failure

/-- The next token if it is of a kind, used up. -/
def takeIf (p : TokenKind → Bool) : Composing (Option Token) := do
  let token ← peek
  if p token.kind then do
    let token ← take
    return some token
  else return none

/-- What a node is put together from before its content is known. -/
structure Properties where
  anchor : Option Text
  tag : Option (Option Text × Text)
  start : Option Mark
  tagMark : Option Mark
  finish : Option Mark

/-- An anchor before a node. -/
def takeAnchor (p : Properties) : Composing Properties := do
  let token ← peek
  match token.kind with
  | .anchor name => do
    let _ ← take
    return { p with
      anchor := some name
      start := p.start <|> some token.start
      finish := some token.finish }
  | _ => return p

/-- A tag before a node. -/
def takeTag (p : Properties) : Composing Properties := do
  let token ← peek
  match token.kind with
  | .tag handle suffix => do
    let _ ← take
    return { p with
      tag := some (handle, suffix)
      start := p.start <|> some token.start
      tagMark := some token.start
      finish := some token.finish }
  | _ => return p

/-- An anchor and a tag before a node, in either order. -/
def takeProperties : Composing Properties := do
  let none' : Properties := ⟨none, none, none, none, none⟩
  let p ← takeAnchor none'
  if p.anchor.isSome then takeTag p
  else do
    let p ← takeTag p
    if p.tag.isSome then takeAnchor p else return p

/-- The whole name of a tag; its handle must be known. -/
def tagName (p : Properties) (mark : Mark) : Composing (Option Text) := do
  match p.tag with
  | none => return none
  | some (none, suffix) => return some suffix
  | some (some handle, suffix) =>
    match (← get).handles.get? handle with
    | some start => return some (start ++ suffix)
    | none =>
      raise (.during .node (p.start.getD mark) (.undefinedHandle handle) (p.tagMark.getD mark))

/-- An anchor must not be on two nodes. -/
def checkAnchor (anchor : Option Text) (mark : Mark) : Composing Unit := do
  match anchor with
  | none => return ()
  | some name =>
    let s ← get
    match s.anchors.get? name with
    | some first =>
      raise (.during (.firstAnchor name) (s.graph.node first).mark .secondAnchor mark)
    | none => return ()

/-- A node gets an anchor. -/
def putAnchor (anchor : Option Text) (id : NodeId) : Composing Unit :=
  match anchor with
  | none => return ()
  | some name => modify fun s => { s with anchors := s.anchors.insert name id }

/-- A new node. -/
def newNode (node : Node) : Composing NodeId := fun s =>
  .ok (s.graph.size, { s with graph := s.graph.add node })

/-- The tag of a collection. -/
def collectionTag (name : Option Text) (default : Tag) : Tag :=
  match name with
  | none => default
  | some ['!'] => default
  | some name => .ofText name

/-- The tag of a scalar. -/
def scalarTag (schema : Tag.Schema) (name : Option Text) (value : Text) (isPlain : Bool) : Tag :=
  match name with
  | none => if isPlain then .ofScalar schema value else .str
  | some ['!'] => .ofScalar schema value
  | some name => .ofText name

/-- A scalar node, which gets its anchor. -/
def scalarNode (anchor name : Option Text) (value : Text) (style : ScalarStyle) (mark : Mark) :
    Composing NodeId := do
  checkAnchor anchor mark
  let tag := scalarTag (← get).schema name value (style = .plain)
  let id ← newNode ⟨tag, .scalar value style, mark⟩
  putAnchor anchor id
  return id

/-- A scalar without text. -/
def emptyNode (mark : Mark) : Composing NodeId := scalarNode none none [] .plain mark

/-- An alias. -/
def aliasNode (name : Text) (mark : Mark) : Composing NodeId := do
  match (← get).anchors.get? name with
  | some id => return id
  | none => raise (.alone (.undefinedAlias name) mark)

/-- Where a node stands: as a block node may, perhaps as a sequence without indentation of its own,
or inside a flow collection. -/
inductive Place
  | block
  | blockOrIndentless
  | flow
  deriving DecidableEq

/-- Whether no node stands before a token in a block mapping. -/
def endsMappingPart (kind : TokenKind) : Bool :=
  kind = .key || kind = .value || kind = .blockEnd

/-- A collection node: it has its number before what is in it is read. -/
def collectionNode (anchor name : Option Text) (default : Tag) (hollow : NodeContent) (mark : Mark)
    (read : Composing NodeContent) : Composing NodeId := do
  checkAnchor anchor mark
  let id ← newNode ⟨collectionTag name default, hollow, mark⟩
  putAnchor anchor id
  let content ← read
  modify fun s => { s with graph := s.graph.setContent id content }
  return id

/-- A sequence node. -/
def sequenceNode (anchor name : Option Text) (mark : Mark) (items : Composing (List NodeId)) :
    Composing NodeId :=
  collectionNode anchor name .seq (.sequence []) mark (.sequence <$> items)

/-- A mapping node. -/
def mappingNode (anchor name : Option Text) (mark : Mark) (entries : Composing (List NodeEntry)) :
    Composing NodeId :=
  collectionNode anchor name .map (.mapping []) mark (.mapping <$> entries)

mutual

/-- A node.
mirrors `parse_node` and `compose_node` of the YAML library -/
def node : Nat → Place → Composing NodeId
  | 0, _ => do fail (← get).failure
  | budget + 1, place => do
    let first ← peek
    match first.kind with
    | .alias name => do
      let _ ← take
      aliasNode name first.start
    | _ => do
      let p ← takeProperties
      let name ← tagName p first.start
      let token ← peek
      let mark := p.start.getD token.start
      match token.kind with
      | .scalar value style => do
        let _ ← take
        scalarNode p.anchor name value style mark
      | .flowSequenceStart => do
        sequenceNode p.anchor name mark do
          let _ ← take
          flowSequence budget true token.start
      | .flowMappingStart => do
        mappingNode p.anchor name mark do
          let _ ← take
          flowMapping budget true token.start
      | kind =>
        if kind = .blockEntry ∧ place = .blockOrIndentless then
          sequenceNode p.anchor name mark (indentlessSequence budget)
        else if kind = .blockSequenceStart ∧ place ≠ .flow then
          sequenceNode p.anchor name mark do
            let _ ← take
            blockSequence budget token.start
        else if kind = .blockMappingStart ∧ place ≠ .flow then
          mappingNode p.anchor name mark do
            let _ ← take
            blockMapping budget token.start
        else if p.anchor.isSome ∨ name.isSome then
          scalarNode p.anchor name [] .plain mark
        else
          raise (.during (if place = .flow then .flowNode else .blockNode) mark
            (.noContent kind.text) token.start)

/-- The items of a block sequence that are still to come.
mirrors `parse_block_sequence_entry` of the YAML library -/
def blockSequence : Nat → Mark → Composing (List NodeId)
  | 0, _ => do fail (← get).failure
  | budget + 1, since => do
    let token ← take
    match token.kind with
    | .blockEntry => do
      let next ← peek
      let item ←
        if next.kind = .blockEntry ∨ next.kind = .blockEnd then emptyNode token.finish
        else node budget .block
      return item :: (← blockSequence budget since)
    | .blockEnd => return []
    | kind => raise (.during .blockCollection since (.noBlockEnd kind.text) token.start)

/-- The items of a sequence without indentation of its own that are still to come.
mirrors `parse_indentless_sequence_entry` of the YAML library -/
def indentlessSequence : Nat → Composing (List NodeId)
  | 0 => do fail (← get).failure
  | budget + 1 => do
    match ← takeIf (· = .blockEntry) with
    | some token => do
      let next ← peek
      let item ←
        if next.kind = .blockEntry ∨ endsMappingPart next.kind then emptyNode token.finish
        else node budget .block
      return item :: (← indentlessSequence budget)
    | none => return []

/-- A key or a value of a block mapping after its indicator. -/
def mappingPart : Nat → Token → Composing NodeId
  | 0, _ => do fail (← get).failure
  | budget + 1, indicator => do
    let next ← peek
    if endsMappingPart next.kind then emptyNode indicator.finish
    else node budget .blockOrIndentless

/-- The entries of a block mapping that are still to come.
mirrors `parse_block_mapping_key` and `parse_block_mapping_value` of the YAML library -/
def blockMapping : Nat → Mark → Composing (List NodeEntry)
  | 0, _ => do fail (← get).failure
  | budget + 1, since => do
    let token ← take
    match token.kind with
    | .key => do
      let key ← mappingPart budget token
      let value ←
        match ← takeIf (· = .value) with
        | some colon => mappingPart budget colon
        | none => do emptyNode (← peek).start
      return (key, value) :: (← blockMapping budget since)
    | .blockEnd => return []
    | kind => raise (.during .blockMapping since (.noBlockEnd kind.text) token.start)

/-- A key or a value in a flow collection after its indicator; `close` ends the collection. -/
def flowPart : Nat → Token → List TokenKind → Composing NodeId
  | 0, _, _ => do fail (← get).failure
  | budget + 1, indicator, ends => do
    let next ← peek
    if ends.contains next.kind then emptyNode indicator.finish
    else node budget .flow

/-- The value in a flow collection after its key. -/
def flowValue : Nat → TokenKind → Composing NodeId
  | 0, _ => do fail (← get).failure
  | budget + 1, close => do
    match ← takeIf (· = .value) with
    | some colon => flowPart budget colon [.flowEntry, close]
    | none => do emptyNode (← peek).start

/-- The items of a flow sequence that are still to come.
mirrors `parse_flow_sequence_entry` of the YAML library -/
def flowSequence : Nat → Bool → Mark → Composing (List NodeId)
  | 0, _, _ => do fail (← get).failure
  | budget + 1, isFirst, since => do
    if (← takeIf (· = .flowSequenceEnd)).isSome then return []
    else do
      if !isFirst then
        if (← takeIf (· = .flowEntry)).isNone then
          let token ← peek
          raise (.during .flowSequence since (.noSequenceEnd token.kind.text) token.start)
      let token ← peek
      if token.kind = .key then do
        let _ ← take
        let key ← flowPart budget token [.value, .flowEntry, .flowSequenceEnd]
        let value ← flowValue budget .flowSequenceEnd
        let item ← newNode ⟨.map, .mapping [(key, value)], token.start⟩
        return item :: (← flowSequence budget false since)
      else if token.kind = .flowSequenceEnd then do
        let _ ← take
        return []
      else do
        let item ← node budget .flow
        return item :: (← flowSequence budget false since)

/-- The entries of a flow mapping that are still to come.
mirrors `parse_flow_mapping_key` and `parse_flow_mapping_value` of the YAML library -/
def flowMapping : Nat → Bool → Mark → Composing (List NodeEntry)
  | 0, _, _ => do fail (← get).failure
  | budget + 1, isFirst, since => do
    if (← takeIf (· = .flowMappingEnd)).isSome then return []
    else do
      if !isFirst then
        if (← takeIf (· = .flowEntry)).isNone then
          let token ← peek
          raise (.during .flowMapping since (.noMappingEnd token.kind.text) token.start)
      let token ← peek
      if token.kind = .key then do
        let _ ← take
        let key ← flowPart budget token [.value, .flowEntry, .flowMappingEnd]
        let value ← flowValue budget .flowMappingEnd
        return (key, value) :: (← flowMapping budget false since)
      else if token.kind = .flowMappingEnd then do
        let _ ← take
        return []
      else do
        let key ← node budget .flow
        let value ← emptyNode (← peek).start
        return (key, value) :: (← flowMapping budget false since)

end

/-! ## Documents -/

/-- The handles that every document knows. -/
def defaultHandles : Table Text := [(['!'], ['!']), (['!', '!'], Tag.commonStart)]

/-- The directives before a document: the handles that they declare.
mirrors `process_directives` of the YAML library -/
def directives : Nat → Bool → Table Text → Composing (Table Text)
  | 0, _, _ => do fail (← get).failure
  | budget + 1, hasVersion, handles => do
    let token ← peek
    match token.kind with
    | .directive (.version major _) => do
      let _ ← take
      if hasVersion then raise (.alone .secondYamlDirective token.start)
      else if major ≠ 1 then raise (.alone .incompatibleVersion token.start)
      else directives budget true handles
    | .directive (.handle name start) => do
      let _ ← take
      if handles.hasKey name then raise (.alone (.secondHandle name) token.start)
      else directives budget hasVersion (handles.insert name start)
    | .directive .other => do
      let _ ← take
      directives budget hasVersion handles
    | _ => return handles

/-- Document ends that come one after the other are passed over. -/
def skipDocumentEnds : Nat → Composing Unit
  | 0 => return ()
  | budget + 1 => do
    if (← takeIf (· = .documentEnd)).isSome then skipDocumentEnds budget

/-- The start of a document with its directives: where it is and the handles, or nothing at the end
of the text.
mirrors `parse_document_start` of the YAML library -/
def documentStart (budget : Nat) : Composing (Option (Mark × Table Text)) := do
  skipDocumentEnds budget
  let token ← peek
  if token.kind = .streamEnd then return none
  else do
    let declared ← directives budget false []
    let next ← peek
    if next.kind ≠ .documentStart then
      raise (.alone (.noDocumentStart next.kind.text) next.start)
    else do
      let _ ← take
      let added := defaultHandles.filter fun (name, _) => !declared.hasKey name
      return some (token.start, declared ++ added)

/-- Whether a document without a start begins at a token. -/
def beginsImplicitly : TokenKind → Bool
  | .directive _ => false
  | .documentStart => false
  | .streamEnd => false
  | _ => true

/-- Whether a document after its start is empty. -/
def isEmptyBefore : TokenKind → Bool
  | .directive _ => true
  | .documentStart => true
  | .documentEnd => true
  | .streamEnd => true
  | _ => false

/-- The root of a document, and what follows: the end of the text. -/
def rootAndEnd (budget : Nat) (root : Composing NodeId) : Composing NodeId := do
  let id ← root
  let _ ← takeIf (· = .documentEnd)
  match ← documentStart budget with
  | none => return id
  | some (mark, _) =>
    raise (.during .singleDocument ((← get).graph.node id).mark .anotherDocument mark)

/-- The root node of a text, if it holds a document.
mirrors `get_single_node` of the YAML library -/
def document (budget : Nat) : Composing (Option NodeId) := do
  let _ ← take
  let first ← peek
  if beginsImplicitly first.kind then
    return some (← rootAndEnd budget (node budget .block))
  else
    match ← documentStart budget with
    | none => return none
    | some (_, handles) => do
      modify fun s => { s with handles := handles }
      return some (← rootAndEnd budget do
        let next ← peek
        if isEmptyBefore next.kind then emptyNode next.start else node budget .block)

end Composer

/-- The nodes of a text and the root among them, if the text holds a document.
mirrors `compose` of the YAML library -/
def Graph.ofText (schema : Tag.Schema) (text : Text) : Reading (Option (Graph × NodeId)) :=
  let stream := TokenStream.ofText text
  let failure := stream.failure.getD (.fault (.alone .endOfStream ⟨text.length, 0, 0⟩))
  let start : Composer := ⟨stream.tokens, failure, schema, Composer.defaultHandles, [], .empty⟩
  match Composer.document (4 * stream.tokens.length + 8) start with
  | .ok (root, final) => .ok (root.map fun id => (final.graph, id))
  | .error e => .error e

end ModernControls.Yaml
