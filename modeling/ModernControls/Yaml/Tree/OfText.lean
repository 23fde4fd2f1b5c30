import ModernControls.Yaml.Draft.OfNode
import ModernControls.Yaml.Graph.OfText

/-!
# Trees of texts

The tree of values that a YAML text holds. A collection inside itself is left empty there.
-/

namespace ModernControls.Yaml

namespace Tree

variable {α : Type}

/-- The tree of a graph. -/
def ofGraph (schema : Tag.Schema) (graph : Graph) (root : NodeId) : Reading (Tree α) := do
  let (draft, maker) ← (Draft.ofRoot root).run (.start schema graph)
  .ok (draft.substitute (Draft.resolved maker.contentOf (graph.size + 1) []))

/-- The tree of a text with a schema; a text without a document has nothing in it.
mirrors `parse_tree` (dialect.structural 110-119) -/
def ofText (schema : Tag.Schema) (text : Text) : Reading (Tree α) := do
  match ← Graph.ofText schema text with
  | none => .ok .null
  | some (graph, root) => ofGraph schema graph root

end Tree

/-- The report on an error in a text, if one is made. -/
def Error.report? (source : Text) : Error → Option Text
  | .unreadable index c => some (unreadableText index c)
  | .fault f => some (f.text source)
  | .breakage _ => none

end ModernControls.Yaml
