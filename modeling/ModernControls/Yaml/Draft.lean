import ModernControls.Yaml.Graph
import ModernControls.Yaml.Tree

/-!
# Trees in the making

A tree in the making may hold a collection that is filled later: it knows the collection's node
only, so the collection can be in itself. It also tells apart the values that are no numbers: all
nodes that are written as such have one value in common, but any other node that comes to no number
has a value of its own.
-/

namespace ModernControls.Yaml

/-- What a tree in the making holds besides values: a collection that is filled later, or what a
node came to that is no number. -/
inductive Pending
  | collection (id : NodeId)
  | unordered (id : NodeId)
  deriving DecidableEq, Repr, Inhabited

/-- A tree in the making. -/
abbrev Draft := Tree Pending

namespace Draft

/-- Whether a tree in the making can be the key of an entry. -/
def isKey : Draft → Bool
  | .foreign (.collection _) => false
  | draft => Tree.isKey draft

/-- Whether two keys are the same; the common value of what is written as no number is the same as
itself, and so is any other that is no number. -/
def sameKey : Draft → Draft → Bool
  | .float .nan, .float .nan => true
  | .foreign p, .foreign q => p = q
  | a, b => Tree.sameKey a b

/-- Whether entries hold a key. -/
def hasKey (entries : List (Draft × Draft)) (key : Draft) : Bool :=
  entries.any fun e => sameKey e.1 key

/-- A key as messages show it. -/
def shown : Draft → Text
  | .foreign (.unordered _) => Tree.shown (.float .nan : Draft)
  | draft => Tree.shown draft

variable {α : Type}

/-- A collection with nothing in it. -/
def hollow : Draft → Tree α
  | .list _ => .list []
  | .set _ => .set []
  | _ => .map []

/-- The tree of what was pending: of a collection what it was filled with, where a collection inside
itself is left empty. A collection is in no more collections than there are. -/
def resolved (content : NodeId → Draft) : Nat → List NodeId → Pending → Tree α
  | _, _, .unordered _ => .float .nan
  | 0, _, .collection id => hollow (content id)
  | budget + 1, around, .collection id =>
    if around.contains id then hollow (content id)
    else (content id).substitute (resolved content budget (id :: around))

end Draft

end ModernControls.Yaml
