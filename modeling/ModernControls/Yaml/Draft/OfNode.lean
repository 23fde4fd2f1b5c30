import ModernControls.Yaml.Draft.Scalar

/-!
# Drafts of nodes

The drafts of all nodes. With the full schema a collection is filled later, after all that was met
before it, and a key that comes again replaces a value. With the reduced schema a map is made at
once with all that it holds, and its keys must differ; other collections are filled later unless
they are in such a map.
-/

namespace ModernControls.Yaml.Draft

open Maker

/-! ## Filling collections -/

/-- The pair of a mapping that must have one entry. -/
def pair (make : NodeId → Making Draft) (activity : Activity) (since : Mark) (id : NodeId) :
    Making Draft := do
  let node ← nodeAt id
  match node.content with
  | .mapping [(key, value)] => do
    let k ← make key
    let v ← make value
    return .tuple [k, v]
  | .mapping entries => raise (.during activity since (.notSinglePair entries.length) node.mark)
  | content => raise (.during activity since (.notPair content.kind) node.mark)

/-- The pairs of a sequence.
mirrors `construct_yaml_pairs` and `construct_yaml_omap` of the YAML library -/
def pairs (make : NodeId → Making Draft) (activity : Activity) (node : Node) : Making Draft :=
  match node.content with
  | .sequence items => return .list (← items.mapM (pair make activity node.mark))
  | content => raise (.during activity node.mark (.notPairSequence content.kind) node.mark)

/-- The items of a sequence.
mirrors `construct_sequence` of the YAML library -/
def items (make : NodeId → Making Draft) (node : Node) : Making Draft :=
  match node.content with
  | .sequence ids => return .list (← ids.mapM make)
  | content => raise (.alone (.notSequence content.kind) node.mark)

/-- A key of a mapping that starts at a mark. -/
def key (make : NodeId → Making Draft) (since : Mark) (id : NodeId) : Making Draft := do
  let draft ← make id
  if draft.isKey then return draft
  else raise (.during .mapping since .unhashableKey (← nodeAt id).mark)

/-- The entries of a map with one more, which may replace the value of one with the same key. -/
def addEntry (make : NodeId → Making Draft) (since : Mark) (done : List (Draft × Draft))
    (entry : NodeEntry) : Making (List (Draft × Draft)) := do
  let k ← key make since entry.1
  let v ← make entry.2
  return Tree.insertEntry sameKey done k v

/-- A key of a mapping that comes again; it is shown unless it is too long for it. -/
def repeated {β : Type} (since : Mark) (key : Draft) (id : NodeId) : Making β := do
  if key.isLong then fail (.breakage .longInteger)
  else raise (.during .mapping since (.duplicateKey key.shown) (← nodeAt id).mark)

/-- The entries of a map with one more, whose key must be a new one. -/
def addNewEntry (make : NodeId → Making Draft) (since : Mark) (done : List (Draft × Draft))
    (entry : NodeEntry) : Making (List (Draft × Draft)) := do
  let k ← key make since entry.1
  if hasKey done k then repeated since k entry.1
  else do
    let v ← make entry.2
    return done ++ [(k, v)]

/-- The entries of a mapping, put together one by one. -/
def entriesBy (add : Mark → List (Draft × Draft) → NodeEntry → Making (List (Draft × Draft)))
    (id : NodeId) : Making (List (Draft × Draft)) := do
  mergeAt id
  let node ← nodeAt id
  node.content.entries.foldlM (add node.mark) []

/-- The entries of a node that must be a mapping; a key may come again.
mirrors `construct_mapping` of the YAML library -/
def entries (make : NodeId → Making Draft) (id : NodeId) : Making (List (Draft × Draft)) := do
  let node ← nodeAt id
  match node.content with
  | .mapping _ => entriesBy (addEntry make) id
  | content => raise (.alone (.notMapping content.kind) node.mark)

/-- What a collection that may be filled later is filled with. -/
def content (make : NodeId → Making Draft) (id : NodeId) : Making Draft := do
  let node ← nodeAt id
  match node.tag with
  | .omap => pairs make .orderedMap node
  | .pairs => pairs make .pairs node
  | .set => return .set ((← entries make id).map (·.1))
  | .map => return .map (← entries make id)
  | _ => items make node

/-- A map whose keys must differ. What is no mapping has no entries, if it holds nothing.
mirrors `_construct_mapping` (dialect.structural 55-75) -/
def strictMap (make : NodeId → Making Draft) (id : NodeId) : Making Draft := do
  match (← nodeAt id).content with
  | .mapping _ => return .map (← entriesBy (addNewEntry make) id)
  | .scalar value _ => if value.isEmpty then return .map [] else fail (.breakage .entries)
  | .sequence ids => if ids.isEmpty then return .map [] else fail (.breakage .shape)

/-! ## Making all nodes -/

/-- Whether a tag asks for a collection that may be filled later. -/
def mayWait (schema : Tag.Schema) : Tag → Bool
  | .seq => true
  | .omap => true
  | .pairs => true
  | .set => true
  | .map => schema = .full
  | _ => false

/-- The draft of a node that is not made yet. With `atOnce` it gets all that it holds; `make` makes
the nodes in it, at once or not. -/
def build (make : Bool → NodeId → Making Draft) (atOnce : Bool) (id : NodeId) : Making Draft := do
  let node ← nodeAt id
  if mayWait (← get).schema node.tag then
    if atOnce then content (make true) id
    else do
      postpone id
      return .foreign (.collection id)
  else if node.tag = .map then strictMap (make true) id
  else scalar id

/-- The draft of a node. Each node around another is being made, so a budget of one more than the
number of nodes is enough.
mirrors `construct_object` of the YAML library -/
def ofNode : Nat → Bool → NodeId → Making Draft
  | 0, _, id => do raise (.alone .recursiveNode (← nodeAt id).mark)
  | budget + 1, atOnce, id => once id (build (ofNode budget) atOnce id)

/-- The collections that wait are filled, from the one at a place on. Each node waits at most
once. -/
def fillFrom (depth : Nat) : Nat → Nat → Making Unit
  | 0, _ => return ()
  | budget + 1, place => do
    match (← get).postponed[place]? with
    | none => return ()
    | some id => do
      setContent id (← content (ofNode depth false) id)
      fillFrom depth budget (place + 1)

/-- The draft of the root of a graph, with all collections filled.
mirrors `construct_document` of the YAML library -/
def ofRoot (root : NodeId) : Making Draft := do
  let size := (← get).graph.size
  let draft ← ofNode (size + 1) false root
  fillFrom (size + 1) (size + 1) 0
  return draft

end ModernControls.Yaml.Draft
