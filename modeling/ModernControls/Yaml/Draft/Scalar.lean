import ModernControls.Yaml.Base64
import ModernControls.Yaml.Draft.Making
import ModernControls.Yaml.Number

/-!
# Drafts of scalars

The drafts of nodes whose tags ask for a scalar. A mapping may stand for a scalar: that under its
first value key.

Results:
- `scalarText_scalar`: the text of a scalar is its own.
-/

namespace ModernControls.Yaml

namespace Graph

/-- The text of a scalar, or of what is under the first value key of a mapping.
mirrors `construct_scalar` of the YAML library -/
def scalarText (g : Graph) : Nat → NodeId → Except Fault Text
  | 0, id => .error (.alone (.notScalar .mapping) (g.node id).mark)
  | budget + 1, id =>
    let node := g.node id
    match node.content with
    | .scalar value _ => .ok value
    | .sequence _ => .error (.alone (.notScalar .sequence) node.mark)
    | .mapping entries =>
      match entries.find? fun entry => (g.node entry.1).tag = .value with
      | some (_, value) => scalarText g budget value
      | none => .error (.alone (.notScalar .mapping) node.mark)

theorem scalarText_scalar (g : Graph) (budget : Nat) (id : NodeId) (value : Text)
    (style : ScalarStyle) (h : (g.node id).content = .scalar value style) :
    g.scalarText (budget + 1) id = .ok value := by
  simp [scalarText, h]

end Graph

namespace Draft

open Maker

/-- The text of a node that must be a scalar. -/
def textAt (id : NodeId) : Making Text := do
  let m ← get
  orRaise (m.graph.scalarText (m.graph.size + 1) id)

/-- A text without a line feed at its end. -/
def withoutFeed (text : Text) : Text := if text.getLast? = some '\n' then text.dropLast else text

/-- The moment of a node.
mirrors `construct_yaml_timestamp` of the YAML library -/
def moment (id : NodeId) : Making Moment := do
  let _ ← textAt id
  match (← nodeAt id).content with
  | .scalar value _ =>
    match Moment.parse? (withoutFeed value) with
    | none => fail (.breakage .moment)
    | some m => if m.check then return m else fail (.breakage .calendar)
  | _ => fail (.breakage .shape)

/-- The bytes of a node.
mirrors `construct_yaml_binary` of the YAML library -/
def bytes (id : NodeId) : Making (List Nat) := do
  let text ← textAt id
  let mark := (← nodeAt id).mark
  match Base64.foreignReport? text with
  | some reason => raise (.alone (.notAscii reason) mark)
  | none =>
    match Base64.decode text with
    | .ok bytes => return bytes
    | .error reason => raise (.alone (.notBase64 reason) mark)

/-- The fraction of a node. -/
def fraction (id : NodeId) : Making Draft := do
  let text ← textAt id
  match ← orBreak (Number.fraction text) with
  | .nan => return if Number.isUnordered text then .float .nan else .foreign (.unordered id)
  | x => return .float x

/-- The text of a node, with the reduced schema also whether it was quoted.
mirrors `_construct_str` (dialect.structural 48-52) -/
def string (id : NodeId) : Making Draft := do
  let text ← textAt id
  match (← get).schema, (← nodeAt id).content with
  | .full, _ => return .text text .plain
  | .reduced, .scalar _ style =>
    return .text text (if style = .single ∨ style = .double then .quoted else .plain)
  | .reduced, _ => fail (.breakage .unstyledText)

/-- The draft of a node whose tag asks for a scalar, or for nothing that can be made. -/
def scalar (id : NodeId) : Making Draft := do
  let node ← nodeAt id
  match node.tag with
  | .null => do
    let _ ← textAt id
    return .null
  | .bool => do
    let text ← textAt id
    return .bool (← orBreak (Number.truth text))
  | .int => do
    let text ← textAt id
    return .int (← orBreak (Number.integer text))
  | .float => fraction id
  | .binary => return Tree.bytes (← bytes id)
  | .timestamp => return Tree.moment (← moment id)
  | .str => string id
  | tag => raise (.alone (.unknownTag tag.text) node.mark)

end Draft

end ModernControls.Yaml
