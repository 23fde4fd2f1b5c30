import ModernControls.Yaml.Draft
import ModernControls.Yaml.Graph.Merge

/-!
# Making drafts

The state in which the drafts of nodes are made. A node is made once: an alias gets the draft that
its node has, and a node that is met again while it is made is a fault. Collections that are filled
later wait for it in the order in which they were met.
-/

namespace ModernControls.Yaml

/-- How far a node has come. -/
inductive Progress
  | untouched
  | started
  | made (draft : Draft)
  deriving Inhabited

/-- The state of making drafts: how far each node has come, which collections are to be filled, and
with what others have been filled. Merging has a budget, the number of entries at the start. -/
structure Maker where
  schema : Tag.Schema
  budget : Nat
  graph : Graph
  progress : Array Progress
  postponed : Array NodeId
  contents : Array Draft

/-- A step of making drafts. -/
abbrev Making (β : Type) := StateT Maker (Except Error) β

namespace Maker

/-- The state before anything is made. -/
def start (schema : Tag.Schema) (graph : Graph) : Maker where
  schema := schema
  budget := graph.entryCount
  graph := graph
  progress := Array.replicate graph.size .untouched
  postponed := #[]
  contents := Array.replicate graph.size .null

/-- How far a node has come. -/
def progressOf (m : Maker) (id : NodeId) : Progress := m.progress[id]?.getD .untouched

/-- What a collection has been filled with. -/
def contentOf (m : Maker) (id : NodeId) : Draft := m.contents[id]?.getD .null

/-- A failed step. -/
def fail {β : Type} (error : Error) : Making β := fun _ => .error error

/-- A step that fails by a fault. -/
def raise {β : Type} (fault : Fault) : Making β := fail (.fault fault)

/-- A value, or a step that fails by a breakage. -/
def orBreak {β : Type} : Except Breakage β → Making β
  | .ok b => return b
  | .error b => fail (.breakage b)

/-- A value, or a step that fails by a fault. -/
def orRaise {β : Type} : Except Fault β → Making β
  | .ok b => return b
  | .error fault => raise fault

/-- The node with a number. -/
def nodeAt (id : NodeId) : Making Node := return (← get).graph.node id

/-- A node has come as far as this. -/
def setProgress (id : NodeId) (p : Progress) : Making Unit :=
  modify fun m => { m with progress := m.progress.setIfInBounds id p }

/-- A collection is to be filled later. -/
def postpone (id : NodeId) : Making Unit :=
  modify fun m => { m with postponed := m.postponed.push id }

/-- A collection is filled. -/
def setContent (id : NodeId) (draft : Draft) : Making Unit :=
  modify fun m => { m with contents := m.contents.setIfInBounds id draft }

/-- A mapping gets the entries that its merge keys name. -/
def mergeAt (id : NodeId) : Making Unit := do
  let m ← get
  let graph ← orRaise (m.graph.merge m.budget id)
  set { m with graph := graph }

/-- The draft of a node that is made now. -/
def first (id : NodeId) (make : Making Draft) : Making Draft := do
  setProgress id .started
  let draft ← make
  setProgress id (.made draft)
  return draft

/-- The draft of a node, which is made unless it already is. -/
def once (id : NodeId) (make : Making Draft) : Making Draft := fun m =>
  match m.progressOf id with
  | .untouched => first id make m
  | .started => .error (.fault (.alone .recursiveNode (m.graph.node id).mark))
  | .made draft => .ok (draft, m)

end Maker

end ModernControls.Yaml
