import ModernControls.Yaml.Tag
import ModernControls.Yaml.Token

/-!
# Node graphs

The nodes of a YAML text. Each node has a number, and collections name the nodes in them by their
numbers. An alias is the number of a node that has been read before, so a node can be in several
collections, even in itself, and what is done to it is seen at all these places.

Results:
- `node_add`, `node_update`, `node_update_of_ne`: a node that is added or changed is found again,
  and no other node changes with it.
-/

namespace ModernControls.Yaml

/-- The number of a node. -/
abbrev NodeId := Nat

/-- A key and its value. -/
abbrev NodeEntry := NodeId × NodeId

/-- What a node is made of. -/
inductive NodeContent
  | scalar (value : Text) (style : ScalarStyle)
  | sequence (items : List NodeId)
  | mapping (entries : List NodeEntry)
  deriving DecidableEq, Inhabited

namespace NodeContent

/-- The kind of a node. -/
def kind : NodeContent → NodeKind
  | .scalar .. => .scalar
  | .sequence _ => .sequence
  | .mapping _ => .mapping

/-- The entries of a mapping; other nodes have none. -/
def entries : NodeContent → List NodeEntry
  | .mapping entries => entries
  | _ => []

end NodeContent

/-- A node with its tag and the mark where it starts. -/
structure Node where
  tag : Tag
  content : NodeContent
  mark : Mark
  deriving DecidableEq, Inhabited

/-- The nodes of a text by their numbers. -/
structure Graph where
  nodes : Array Node
  deriving Inhabited

namespace Graph

/-- A graph without nodes. -/
def empty : Graph := ⟨#[]⟩

/-- How many nodes there are. -/
def size (g : Graph) : Nat := g.nodes.size

/-- The node with a number. -/
def node (g : Graph) (id : NodeId) : Node := g.nodes[id]?.getD default

/-- The entries of a node. -/
def entries (g : Graph) (id : NodeId) : List NodeEntry := (g.node id).content.entries

/-- A graph with one more node, which gets the next number. -/
def add (g : Graph) (node : Node) : Graph := ⟨g.nodes.push node⟩

/-- A graph with a node changed. -/
def update (g : Graph) (id : NodeId) (change : Node → Node) : Graph := ⟨g.nodes.modify id change⟩

/-- A graph with the content of a node replaced. -/
def setContent (g : Graph) (id : NodeId) (content : NodeContent) : Graph :=
  g.update id fun node => { node with content := content }

/-- A graph with the entries of a mapping replaced. -/
def setEntries (g : Graph) (id : NodeId) (entries : List NodeEntry) : Graph :=
  g.setContent id (.mapping entries)

/-- How many entries all mappings have together. -/
def entryCount (g : Graph) : Nat := g.nodes.foldl (fun n node => n + node.content.entries.length) 0

theorem node_add (g : Graph) (node : Node) : (g.add node).node g.size = node := by
  simp [Graph.node, add, size]

theorem node_update (g : Graph) (id : NodeId) (change : Node → Node) (h : id < g.size) :
    (g.update id change).node id = change (g.node id) := by
  have h' : id < g.nodes.size := h
  simp only [Graph.node, update, Array.getElem?_modify]
  simp [h']

theorem node_update_of_ne (g : Graph) (id other : NodeId) (change : Node → Node) (h : id ≠ other) :
    (g.update id change).node other = g.node other := by
  simp [Graph.node, update, Array.getElem?_modify, h]

end Graph

end ModernControls.Yaml
