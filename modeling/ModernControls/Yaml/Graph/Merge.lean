import ModernControls.Yaml.Graph

/-!
# Merge keys

A merge key of a mapping names a mapping, or a sequence of mappings, whose entries come before the
mapping's own. Of a sequence the entries of the last mapping come first.

A mapping is merged in its place, once and for all: a mapping that is named under a merge key is
merged first and stays so. Where mappings name each other, each gives the entries that it has at
that moment. A value key of a mapping that is merged becomes a key like any other.

Results:
- `merge_of_ordinary`: a mapping whose keys are neither merge keys nor value keys stays as it is.
-/

namespace ModernControls.Yaml.Graph

/-- Whether the key of an entry is a merge key. -/
def isMerge (g : Graph) (entry : NodeEntry) : Bool := (g.node entry.1).tag = .merge

/-- A value key becomes a text. -/
def plainKey (g : Graph) (id : NodeId) : Graph :=
  if (g.node id).tag = .value then g.update id fun node => { node with tag := .str } else g

/-- Value keys become texts. -/
def plainKeys (g : Graph) (entries : List NodeEntry) : Graph :=
  entries.foldl (fun g entry => g.plainKey entry.1) g

/-- A mapping has all its entries: those that were merged, and its own. -/
def settle (g : Graph) (id : NodeId) (merged own : List NodeEntry) : Graph :=
  if merged.isEmpty then g.plainKeys own
  else (g.setEntries id (merged ++ own)).plainKeys (merged ++ own)

/-- The entries that a sequence under a merge key gives, each of its mappings merged by `merge`. The
key is in a mapping that starts at a mark. -/
def mergedItems (merge : Graph → NodeId → Except Fault Graph) (since : Mark) :
    Graph → List NodeId → Except Fault (Graph × List NodeEntry)
  | g, [] => .ok (g, [])
  | g, id :: rest =>
    let item := g.node id
    match item.content with
    | .mapping _ => do
      let g ← merge g id
      let own := g.entries id
      let (g, later) ← mergedItems merge since g rest
      .ok (g, later ++ own)
    | content =>
      .error (.during .mapping since (.notMergeableItem content.kind) item.mark)

/-- The entries that a node under a merge key gives, its mappings merged by `merge`. The key is in a
mapping that starts at a mark. -/
def mergedSource (merge : Graph → NodeId → Except Fault Graph) (since : Mark) (g : Graph)
    (source : NodeId) : Except Fault (Graph × List NodeEntry) :=
  let node := g.node source
  match node.content with
  | .mapping _ => do
    let g ← merge g source
    .ok (g, g.entries source)
  | .sequence items => mergedItems merge since g items
  | .scalar .. => .error (.during .mapping since (.notMergeable .scalar) node.mark)

/-- A mapping gets the entries that its merge keys name; `merged` are those that it already got.
Each merge key is taken out before what it names is merged, so the budget need not be more than the
number of entries. -/
def mergeInto : Nat → List NodeEntry → Graph → NodeId → Except Fault Graph
  | 0, _, g, _ => .ok g
  | budget + 1, merged, g, id =>
    let own := g.entries id
    match own.find? g.isMerge with
    | none => .ok (g.settle id merged own)
    | some (_, source) => do
      let g := g.setEntries id (own.eraseP g.isMerge)
      let (g, more) ← mergedSource (mergeInto budget []) (g.node id).mark g source
      mergeInto budget (merged ++ more) g id

/-- A graph with a mapping merged, within a budget.
mirrors `flatten_mapping` of the YAML library -/
def merge (budget : Nat) (g : Graph) (id : NodeId) : Except Fault Graph :=
  mergeInto (budget + 1) [] g id

theorem plainKeys_of_ordinary (g : Graph) {entries : List NodeEntry}
    (h : ∀ e ∈ entries, (g.node e.1).tag ≠ .value) : g.plainKeys entries = g := by
  induction entries with
  | nil => rfl
  | cons e rest ih =>
    have he : g.plainKey e.1 = g := by simp [plainKey, h e List.mem_cons_self]
    rw [plainKeys, List.foldl_cons, he]
    exact ih fun d hd => h d (List.mem_cons_of_mem _ hd)

theorem merge_of_ordinary (budget : Nat) (g : Graph) (id : NodeId)
    (h : ∀ e ∈ g.entries id, (g.node e.1).tag ≠ .merge ∧ (g.node e.1).tag ≠ .value) :
    g.merge budget id = .ok g := by
  have hn : (g.entries id).find? g.isMerge = none := by
    rw [List.find?_eq_none]
    intro e he
    simp [isMerge, (h e he).1]
  simp [merge, mergeInto, hn, settle, plainKeys_of_ordinary g fun e he => (h e he).2]

end ModernControls.Yaml.Graph
