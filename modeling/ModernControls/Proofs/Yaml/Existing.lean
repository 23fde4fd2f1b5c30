import ModernControls.Proofs.Yaml.Composing
import ModernControls.Proofs.Yaml.Making
import ModernControls.Proofs.Yaml.Short
import ModernControls.Yaml.Tree.OfText

/-!
# Values that exist

A text can name values that do not exist: a character beyond the last one, the thirtieth of
February, an integer without digits. Reading breaks off there, and at nodes whose tags ask for
another shape. Apart from these every text has a tree or a report on what is wrong with it, and no
integer in the tree is too long to be written.

Results:
- `Draft.extends_short`: making drafts of nodes that have values;
- `Tree.ofText_ends`: what the reading of a text ends with.
-/

namespace ModernControls.Yaml

/-! ## Nodes -/

/-- Whether the value exists that a scalar with a tag names. Long integers count as missing. -/
def Tag.hasValue (tag : Tag) (text : Text) : Bool :=
  match tag with
  | .bool => (Number.truth text).toOption.isSome
  | .int => (Number.integer text).toOption.any fun n => !isLongInteger n
  | .float => (Number.fraction text).toOption.isSome
  | .timestamp => (Moment.parse? (Draft.withoutFeed text)).any Moment.check
  | _ => true

/-- Whether a mapping with a tag can be made what the tag asks for. What a scalar of the mapping's
own would have to say is not looked at. -/
def Tag.takesMapping (schema : Tag.Schema) (tag : Tag) : Bool :=
  match tag with
  | .bool => false
  | .int => false
  | .float => false
  | .timestamp => false
  | .str => schema = .full
  | .value => schema = .full
  | _ => true

/-- Whether there is what a node stands for. With the reduced schema a map may be written as a
scalar or a sequence if it is empty. -/
def Node.hasValue (schema : Tag.Schema) (n : Node) : Bool :=
  match n.content with
  | .scalar value _ => n.tag.hasValue value && (schema = .full || n.tag ≠ .map || value.isEmpty)
  | .sequence ids => schema = .full || n.tag ≠ .map || ids.isEmpty
  | .mapping _ => n.tag.takesMapping schema

theorem Node.Changes.hasValue {schema : Tag.Schema} {n n' : Node} (h : n.Changes n')
    (hv : n.hasValue schema = true) : n'.hasValue schema = true := by
  obtain ⟨tag, content, mark⟩ := n
  obtain ⟨tag', content', mark'⟩ := n'
  obtain ⟨rfl | ⟨rfl, rfl⟩, rfl | ⟨es, es', rfl, rfl⟩⟩ := h
  · exact hv
  · exact hv
  · cases content' with
    | scalar value style => simp [Node.hasValue, Tag.hasValue]
    | sequence ids => simp [Node.hasValue]
    | mapping es => exact hv
  · exact hv

/-! ## Scalars -/

namespace Draft

open Maker

/-- Nodes that have values, drafts without long integers, and refusals with a report. -/
def short (schema : Tag.Schema) : Law :=
  ⟨schema, fun n => n.hasValue schema = true, fun draft => draft.isShort = true, Error.IsReported⟩

variable {schema : Tag.Schema} {m : Maker} {id : NodeId}

/-- The text of a scalar is that of its node, but it may be that of a mapping's own scalar. -/
theorem textAt_ends (m : Maker) (id : NodeId) : Ends Error.IsReported (textAt id m) fun r =>
    r.2 = m ∧ ((∃ style, (m.graph.node id).content = .scalar r.1 style) ∨
      ∃ entries, (m.graph.node id).content = .mapping entries) := by
  refine Ends.bindAt (get_ends _ m) ?_
  rintro _ rfl
  dsimp only
  cases hc : (m.graph.node id).content with
  | scalar value style =>
    rw [Graph.scalarText_scalar _ _ _ _ _ hc]
    exact ⟨rfl, .inl ⟨style, rfl⟩⟩
  | sequence ids =>
    simp only [Graph.scalarText, hc]
    exact trivial
  | mapping entries =>
    cases m.graph.scalarText (m.graph.size + 1) id with
    | ok text => exact ⟨rfl, .inr ⟨entries, rfl⟩⟩
    | error fault => exact trivial

/-- The text of a scalar whose tag takes no mappings names a value. -/
theorem textAt_ends_of_hasValue (hv : (m.graph.node id).hasValue schema = true)
    (ht : (m.graph.node id).tag.takesMapping schema = false) :
    Ends Error.IsReported (textAt id m) fun r =>
      r.2 = m ∧ (∃ style, (m.graph.node id).content = .scalar r.1 style) ∧
        (m.graph.node id).tag.hasValue r.1 = true := by
  refine Ends.mono (textAt_ends m id) fun r hr => ⟨hr.1, ?_⟩
  rw [Node.hasValue.eq_def] at hv
  rcases hr.2 with ⟨style, hc⟩ | ⟨entries, hc⟩
  · rw [hc] at hv ⊢
    exact ⟨⟨style, rfl⟩, (Bool.and_eq_true_iff.1 hv).1⟩
  · rw [hc] at hv
    exact absurd (ht.symm.trans hv) Bool.false_ne_true

theorem orBreak_ends {β : Type} {x : Except Breakage β} (h : x.toOption.isSome = true) :
    Ends Error.IsReported (orBreak x m) fun r => r.2 = m ∧ x = .ok r.1 := by
  cases x with
  | ok b => exact ⟨rfl, rfl⟩
  | error b => cases h

theorem moment_ends (hv : (m.graph.node id).hasValue schema = true)
    (ht : (m.graph.node id).tag = .timestamp) :
    Ends Error.IsReported (moment id m) fun r => r.2 = m := by
  refine Ends.bindAt (textAt_ends_of_hasValue hv (ht ▸ rfl)) ?_
  rintro ⟨text, m⟩ ⟨rfl, ⟨style, hc⟩, hvalue⟩
  refine Ends.bindAt (nodeAt_ends _ id m) ?_
  rintro _ rfl
  rw [ht] at hvalue
  dsimp only [Tag.hasValue] at hvalue ⊢
  simp only [hc]
  cases hp : Moment.parse? (withoutFeed text) with
  | none => simp [hp] at hvalue
  | some found =>
    simp only [hp, Option.any_some] at hvalue
    simp only [hvalue]
    exact rfl

theorem bytes_ends (m : Maker) (id : NodeId) :
    Ends Error.IsReported (bytes id m) fun r => r.2 = m := by
  refine Ends.bindAt (textAt_ends m id) ?_
  rintro ⟨text, m⟩ ⟨rfl, -⟩
  refine Ends.bindAt (nodeAt_ends _ id m) ?_
  rintro _ rfl
  dsimp only
  cases Base64.foreignReport? text with
  | some reason => exact trivial
  | none =>
    cases Base64.decode text with
    | ok bytes => exact rfl
    | error reason => exact trivial

theorem fraction_ends (hv : (m.graph.node id).hasValue schema = true)
    (ht : (m.graph.node id).tag = .float) :
    Ends Error.IsReported (fraction id m) fun r => r.2 = m ∧ r.1.isShort = true := by
  refine Ends.bindAt (textAt_ends_of_hasValue hv (ht ▸ rfl)) ?_
  rintro ⟨text, m⟩ ⟨rfl, -, hvalue⟩
  rw [ht] at hvalue
  refine Ends.bindAt (orBreak_ends hvalue) ?_
  rintro ⟨x, m⟩ ⟨rfl, -⟩
  dsimp only
  split
  · refine ⟨rfl, ?_⟩
    split <;> rfl
  · exact ⟨rfl, rfl⟩

theorem string_ends (hm : m.schema = schema) (hv : (m.graph.node id).hasValue schema = true)
    (ht : (m.graph.node id).tag = .str) :
    Ends Error.IsReported (string id m) fun r => r.2 = m ∧ r.1.isShort = true := by
  refine Ends.bindAt (textAt_ends m id) ?_
  rintro ⟨text, m⟩ ⟨rfl, hc⟩
  refine Ends.bindAt (get_ends _ m) ?_
  rintro _ rfl
  refine Ends.bindAt (nodeAt_ends _ id m) ?_
  rintro _ rfl
  dsimp only
  rcases hc with ⟨style, hc⟩ | ⟨entries, hc⟩
  · rw [hc]
    cases m.schema with
    | full => exact ⟨rfl, rfl⟩
    | reduced => exact ⟨rfl, rfl⟩
  · simp only [Node.hasValue, hc, ht, Tag.takesMapping, decide_eq_true_eq] at hv
    rw [hm, hv]
    exact ⟨rfl, rfl⟩

theorem scalar_ends (hm : m.schema = schema) (hv : (m.graph.node id).hasValue schema = true) :
    Ends Error.IsReported (scalar id m) fun r => r.2 = m ∧ r.1.isShort = true := by
  refine Ends.bindAt (nodeAt_ends _ id m) ?_
  rintro _ rfl
  dsimp only
  cases ht : (m.graph.node id).tag with
  | null =>
    refine Ends.bindAt (textAt_ends m id) ?_
    rintro r ⟨hr, -⟩
    exact ⟨hr, rfl⟩
  | bool => 
    refine Ends.bindAt (textAt_ends_of_hasValue hv (ht ▸ rfl)) ?_
    rintro ⟨text, m⟩ ⟨rfl, -, hvalue⟩
    rw [ht] at hvalue
    refine Ends.bindAt (orBreak_ends hvalue) ?_
    rintro ⟨b, m⟩ ⟨rfl, -⟩
    exact ⟨rfl, rfl⟩
  | int => 
    refine Ends.bindAt (textAt_ends_of_hasValue hv (ht ▸ rfl)) ?_
    rintro ⟨text, m⟩ ⟨rfl, -, hvalue⟩
    simp only [ht, Tag.hasValue] at hvalue
    cases hn : Number.integer text with
    | ok n =>
      simp only [hn, Except.toOption, Option.any_some] at hvalue
      exact ⟨rfl, hvalue⟩
    | error b => simp [hn, Except.toOption] at hvalue
  | float => exact fraction_ends hv ht
  | binary =>
    refine Ends.bindAt (bytes_ends m id) fun r hr => ⟨hr, rfl⟩
  | timestamp =>
    refine Ends.bindAt (moment_ends hv ht) fun r hr => ⟨hr, rfl⟩
  | str => exact string_ends hm hv ht
  | _ => exact trivial

/-- Making drafts of nodes that have values gives no long integers. -/
theorem extends_short (schema : Tag.Schema) : (short schema).Extends where
  changes hv h := h.hasValue hv
  fault _ := trivial
  long {key} hk hlong := by
    cases key with
    | int n =>
      have hshort : (!isLongInteger n) = true := hk
      rw [show isLongInteger n = true from hlong] at hshort
      cases hshort
    | _ => cases hlong
  entries hv ht hnow hc hne := by
    simp_all [short, Node.hasValue, mayWait]
  shape hv ht hnow hc hne := by
    simp_all [short, Node.hasValue, mayWait]
  scalar id m hm := by
    refine Ends.mono (scalar_ends hm.schema (hm.nodes id)) fun r hr => ?_
    exact ⟨hr.1 ▸ hm, hr.2⟩
  null := rfl
  waiting _ := rfl
  pair hk hv := Tree.areShort_iff.2 (List.forall_mem_cons.2 ⟨hk, List.forall_mem_singleton.2 hv⟩)
  list h := Tree.areShort_iff.2 h
  set h := Tree.areShort_iff.2 h
  map h := Tree.areShortEntries_iff.2 h

/-- What was pending has no long integers once it is put in. -/
theorem isShort_resolved {content : NodeId → Draft} (h : ∀ id, (content id).isShort = true)
    {α : Type} (budget : Nat) (around : List NodeId) (p : Pending) :
    (resolved content budget around p : Tree α).isShort = true := by
  have hhollow : ∀ draft : Draft, (hollow draft : Tree α).isShort = true := fun draft => by
    cases draft <;> rfl
  induction budget generalizing around p with
  | zero =>
    cases p with
    | collection id => exact hhollow _
    | unordered id => rfl
  | succ budget ih =>
    cases p with
    | collection id =>
      rw [resolved]
      split
      · exact hhollow _
      · exact Tree.isShort_substitute (fun p => ih _ p) _ (h id)
    | unordered id => rfl

end Draft

/-! ## Texts -/

/-- Whether there is what the nodes of a text stand for. -/
def nodesExist (schema : Tag.Schema) (text : Text) : Bool :=
  match Graph.ofText schema text with
  | .ok (some (graph, _)) => graph.nodes.all (Node.hasValue schema)
  | _ => true

/-- Whether all values exist that a text names. -/
structure ValuesExist (schema : Tag.Schema) (text : Text) : Prop where
  scannable : Scannable text
  nodes : nodesExist schema text = true

instance (schema : Tag.Schema) (text : Text) : Decidable (ValuesExist schema text) :=
  decidable_of_iff (Scannable text ∧ nodesExist schema text = true)
    ⟨fun h => ⟨h.1, h.2⟩, fun h => ⟨h.scannable, h.nodes⟩⟩

/-- A node that a graph does not have counts as an empty scalar. -/
theorem ValuesExist.hasValue {schema : Tag.Schema} {text : Text} (h : ValuesExist schema text)
    {graph : Graph} {root : NodeId} (hg : Graph.ofText schema text = .ok (some (graph, root)))
    (id : NodeId) : (graph.node id).hasValue schema = true := by
  have hall := h.nodes
  rw [nodesExist, hg] at hall
  rw [Graph.node]
  cases hn : graph.nodes[id]? with
  | none => cases schema <;> rfl
  | some n => exact Array.all_eq_true'.1 hall n (Array.mem_of_getElem? hn)

/-- A text whose values exist has a tree without long integers, or a report. -/
theorem Tree.ofText_ends {schema : Tag.Schema} {text : Text} (h : ValuesExist schema text)
    (α : Type) : Ends Error.IsReported (Tree.ofText schema text : Reading (Tree α))
      fun tree => tree.isShort = true := by
  rw [Tree.ofText]
  cases hg : Graph.ofText schema text with
  | error e => exact Graph.ofText_reported h.scannable hg
  | ok found =>
    cases found with
    | none => exact rfl
    | some found =>
      obtain ⟨graph, root⟩ := found
      change Ends Error.IsReported (ofGraph schema graph root) fun tree => tree.isShort = true
      refine Ends.bind (Draft.ofRoot_ends (Draft.extends_short schema)
        (h.hasValue hg) root) fun r hr => ?_
      exact Tree.isShort_substitute (fun p => Draft.isShort_resolved hr.1.contents _ _ p) r.1 hr.2

end ModernControls.Yaml
