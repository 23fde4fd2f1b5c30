import ModernControls.Proofs.Yaml.OutlineTokens
import ModernControls.Yaml.Graph.OfText

/-!
# The nodes of outlines

The nodes of an outline are numbered in the order in which they begin, so those of a part are a
range that starts with the part's own number. The graph that is put together from the tokens of an
outline holds these nodes and no others.

Results:
- `holds_congr`: whether a graph holds an outline depends on the outline's own range only;
- `node_adds`: what is put together from the tokens of an outline, whatever follows them;
- `graph_write`, `graph_word`: the graph of a whole text.
-/
namespace ModernControls.Yaml

/-- The tag of a node that has no tag written before it. -/
def NodeContent.ownTag (schema : Tag.Schema) : NodeContent → Tag
  | .scalar value style => Composer.scalarTag schema none value (style = .plain)
  | .sequence _ => .seq
  | .mapping _ => .map

/-- A node is made of a content and has the tag that this content has by itself. -/
def Bears (schema : Tag.Schema) (g : Graph) (id : Nat) (content : NodeContent) : Prop :=
  (g.node id).content = content ∧ (g.node id).tag = content.ownTag schema

/-- What the node of a line end is made of. -/
def LineEnd.content : LineEnd → NodeContent
  | nothing => .scalar [] .plain
  | word w => .scalar w.value w.style
  | formula _ => .scalar [] .plain
  | literal keeps lines => .scalar (Scalar.blockValue keeps lines) .literal
  | brackets => .sequence []
  | braces => .mapping []

namespace Outline

mutual

/-- How many nodes an outline has. -/
def size : Outline → Nat
  | leaf _ => 1
  | list items => 1 + sizeItems items
  | map entries => 1 + sizeEntries entries

/-- How many nodes items have. -/
def sizeItems : List Outline → Nat
  | [] => 0
  | item :: rest => size item + sizeItems rest

/-- How many nodes entries have. -/
def sizeEntries : List (Word × Outline) → Nat
  | [] => 0
  | (_, value) :: rest => 1 + size value + sizeEntries rest

end

/-- The numbers of items from a number on. -/
def itemIds (id : Nat) : List Outline → List NodeId
  | [] => []
  | item :: rest => id :: itemIds (id + item.size) rest

/-- The numbers of the keys and values of entries from a number on. -/
def entryIds (id : Nat) : List (Word × Outline) → List NodeEntry
  | [] => []
  | (_, value) :: rest => (id, id + 1) :: entryIds (id + (1 + value.size)) rest

mutual

/-- A graph holds the nodes of an outline from a number on. -/
def Holds (schema : Tag.Schema) (g : Graph) (id : Nat) : Outline → Prop
  | leaf last => Bears schema g id last.content
  | list items => Bears schema g id (.sequence (itemIds (id + 1) items))
    ∧ HoldsItems schema g (id + 1) items
  | map entries => Bears schema g id (.mapping (entryIds (id + 1) entries))
    ∧ HoldsEntries schema g (id + 1) entries

/-- A graph holds the nodes of items from a number on. -/
def HoldsItems (schema : Tag.Schema) (g : Graph) (id : Nat) : List Outline → Prop
  | [] => True
  | item :: rest => Holds schema g id item ∧ HoldsItems schema g (id + item.size) rest

/-- A graph holds the nodes of entries from a number on. -/
def HoldsEntries (schema : Tag.Schema) (g : Graph) (id : Nat) : List (Word × Outline) → Prop
  | [] => True
  | (key, value) :: rest => Bears schema g id (.scalar key.value key.style)
    ∧ Holds schema g (id + 1) value ∧ HoldsEntries schema g (id + (1 + value.size)) rest

end

variable {schema : Tag.Schema} {g g' : Graph}

theorem size_pos (o : Outline) : 0 < o.size := by
  cases o <;> simp only [size] <;> omega

theorem bears_congr {id : Nat} {content : NodeContent} (h : g'.node id = g.node id) :
    Bears schema g id content → Bears schema g' id content := fun hb => by
  rwa [Bears, h]

mutual

theorem holds_congr : ∀ (o : Outline) (id : Nat),
    (∀ i : Nat, id ≤ i → i < id + o.size → g'.node i = g.node i) → Holds schema g id o →
      Holds schema g' id o
  | leaf _, id, hn, h => bears_congr (hn id (Nat.le_refl _) (by simp [size])) h
  | list items, id, hn, h => by
    refine ⟨bears_congr (hn id (Nat.le_refl _) (by simp only [size]; omega)) h.1,
      holdsItems_congr items (id + 1) (fun i h1 h2 => hn i (by omega) ?_) h.2⟩
    simp only [size]
    omega
  | map entries, id, hn, h => by
    refine ⟨bears_congr (hn id (Nat.le_refl _) (by simp only [size]; omega)) h.1,
      holdsEntries_congr entries (id + 1) (fun i h1 h2 => hn i (by omega) ?_) h.2⟩
    simp only [size]
    omega

theorem holdsItems_congr : ∀ (items : List Outline) (id : Nat),
    (∀ i : Nat, id ≤ i → i < id + sizeItems items → g'.node i = g.node i) →
      HoldsItems schema g id items → HoldsItems schema g' id items
  | [], _, _, _ => trivial
  | item :: rest, id, hn, h => by
    simp only [sizeItems] at hn
    exact ⟨holds_congr item id (fun i h1 h2 => hn i h1 (by omega)) h.1,
      holdsItems_congr rest _ (fun i h1 h2 => hn i (by omega) (by omega)) h.2⟩

theorem holdsEntries_congr : ∀ (entries : List (Word × Outline)) (id : Nat),
    (∀ i : Nat, id ≤ i → i < id + sizeEntries entries → g'.node i = g.node i) →
      HoldsEntries schema g id entries → HoldsEntries schema g' id entries
  | [], _, _, _ => trivial
  | (key, value) :: rest, id, hn, h => by
    simp only [sizeEntries] at hn
    exact ⟨bears_congr (hn id (Nat.le_refl _) (by omega)) h.1,
      holds_congr value _ (fun i h1 h2 => hn i (by omega) (by omega)) h.2.1,
      holdsEntries_congr rest _ (fun i h1 h2 => hn i (by omega) (by omega)) h.2.2⟩

end

end Outline

/-! ## Steps of putting nodes together -/

namespace Composer

open Outline

variable {α β : Type} {s s₁ s₂ : Composer} {x : Composing α} {schema : Tag.Schema}

/-- A step that goes well and what comes after it. -/
theorem bind_ok {a : α} (h : x s = .ok (a, s₁)) (f : α → Composing β) : (x >>= f) s = f a s₁ := by
  simp [bind, StateT.bind, Except.bind, h]

theorem map_ok {a : α} (h : x s = .ok (a, s₁)) (f : α → β) : (f <$> x) s = .ok (f a, s₁) := by
  simp [Functor.map, StateT.map, bind, Except.bind, h, pure, Except.pure]

theorem peek_ok {token : Token} {rest : List Token} (h : s.tokens = token :: rest) :
    peek s = .ok (token, s) := by
  simp [peek, h]

theorem take_ok {token : Token} {rest : List Token} (h : s.tokens = token :: rest) :
    take s = .ok (token, { s with tokens := rest }) := by
  simp [take, h]

theorem takeIf_yes {token : Token} {rest : List Token} {p : TokenKind → Bool}
    (h : s.tokens = token :: rest) (hp : p token.kind = true) :
    takeIf p s = .ok (some token, { s with tokens := rest }) := by
  rw [takeIf, bind_ok (peek_ok h), if_pos hp, bind_ok (take_ok h)]
  rfl

theorem takeIf_no {token : Token} {rest : List Token} {p : TokenKind → Bool}
    (h : s.tokens = token :: rest) (hp : p token.kind = false) :
    takeIf p s = .ok (none, s) := by
  rw [takeIf, bind_ok (peek_ok h), if_neg (by simp [hp])]
  rfl

/-- What a step that adds nodes leads to: some tokens are still to come, and the nodes before are
kept. -/
structure Follows (s s' : Composer) (size : Nat) (rest : List TokenKind) : Prop where
  tokens : s'.tokens.map (·.kind) = rest
  schema : s'.schema = s.schema
  grown : s'.graph.size = s.graph.size + size
  kept : ∀ id < s.graph.size, s'.graph.node id = s.graph.node id

theorem Follows.trans {m n : Nat} {rest rest' : List TokenKind} (h : Follows s s₁ m rest)
    (h' : Follows s₁ s₂ n rest') : Follows s s₂ (m + n) rest' where
  tokens := h'.tokens
  schema := h'.schema.trans h.schema
  grown := by rw [h'.grown, h.grown, Nat.add_assoc]
  kept id hid := (h'.kept id (by rw [h.grown]; omega)).trans (h.kept id hid)

/-- A step reads tokens of its own kinds and adds nodes: its result is known from the number of the
first of them, and the graph holds them from there on. -/
def Adds (schema : Tag.Schema) (read : Composing α) (own rest : List TokenKind) (size : Nat)
    (result : Nat → α) (holds : Graph → Nat → Prop) : Prop :=
  ∀ s : Composer, s.schema = schema → s.tokens.map (·.kind) = own ++ rest →
    ∃ s', read s = .ok (result s.graph.size, s') ∧ Follows s s' size rest
      ∧ holds s'.graph s.graph.size

theorem node_push_of_lt (g : Graph) (node : Node) {id : Nat} (h : id < g.size) :
    (g.add node).node id = g.node id := by
  have h' : id < g.nodes.size := h
  simp only [Graph.node, Graph.add, Array.getElem?_push, h'.ne, if_false]

theorem follows_newNode (s : Composer) (node : Node) :
    Follows s { s with graph := s.graph.add node } 1 (s.tokens.map (·.kind)) where
  tokens := rfl
  schema := rfl
  grown := by simp [Graph.size, Graph.add]
  kept id hid := node_push_of_lt s.graph node hid

theorem scalarNode_adds (value : Text) (style : ScalarStyle) (mark : Mark)
    (rest : List TokenKind) :
    Adds schema (scalarNode none none value style mark) [] rest 1 (fun id => id)
      fun g id => Bears schema g id (.scalar value style) := by
  intro s hs ht
  refine ⟨_, rfl, ?_, ?_⟩
  · have := follows_newNode s ⟨scalarTag s.schema none value (style = .plain),
      .scalar value style, mark⟩
    rwa [ht] at this
  · simp only [Bears, Graph.node_add, hs, NodeContent.ownTag, and_self]

theorem emptyNode_adds (mark : Mark) (rest : List TokenKind) :
    Adds schema (emptyNode mark) [] rest 1 (fun id => id) fun g id =>
      Bears schema g id (.scalar [] .plain) :=
  scalarNode_adds [] .plain mark rest

/-- A collection has its number before what is in it. -/
theorem collectionNode_adds {read : Composing NodeContent} {own rest : List TokenKind} {size : Nat}
    {content : Nat → NodeContent} {holds : Graph → Nat → Prop} (default : Tag)
    (hollow : NodeContent) (mark : Mark)
    (htag : ∀ id, (content id).ownTag schema = default)
    (h : Adds schema read own rest size content holds)
    (hcongr : ∀ g g' id, (∀ i : Nat, id ≤ i → g'.node i = g.node i) → holds g id → holds g' id) :
    Adds schema (collectionNode none none default hollow mark read) own rest (1 + size)
      (fun id => id)
      fun g id => Bears schema g id (content (id + 1)) ∧ holds g (id + 1) := by
  intro s hs ht
  have hnew := follows_newNode s ⟨default, hollow, mark⟩
  obtain ⟨s', hread, hf, hh⟩ := h { s with graph := s.graph.add ⟨default, hollow, mark⟩ } hs ht
  have hlt : s.graph.size < s'.graph.size := by rw [hf.grown, hnew.grown]; omega
  have hself : s'.graph.node s.graph.size = ⟨default, hollow, mark⟩ := by
    rw [hf.kept _ (by rw [hnew.grown]; omega), Graph.node_add]
  have hsize : (s.graph.add ⟨default, hollow, mark⟩).size = s.graph.size + 1 := hnew.grown
  rw [hsize] at hread hh
  have hothers : ∀ i, s.graph.size ≠ i →
      (s'.graph.setContent s.graph.size (content (s.graph.size + 1))).node i = s'.graph.node i :=
    fun i hi => Graph.node_update_of_ne _ _ _ _ hi
  refine ⟨{ s' with
    graph := s'.graph.setContent s.graph.size (content (s.graph.size + 1)) }, ?_, ?_, ?_, ?_⟩
  · have : collectionNode none none default hollow mark read s
        = (read >>= fun c => do
          modify fun s' : Composer => { s' with graph := s'.graph.setContent s.graph.size c }
          return s.graph.size) { s with graph := s.graph.add ⟨default, hollow, mark⟩ } := rfl
    rw [this, bind_ok hread]
    rfl
  · obtain ⟨ht', hs', hg, hk⟩ := hnew.trans hf
    refine ⟨ht', hs', ?_, fun id hid => (hothers id (Nat.ne_of_gt hid)).trans (hk id hid)⟩
    simpa [Graph.size, Graph.setContent, Graph.update] using hg
  · have : (s'.graph.setContent s.graph.size (content (s.graph.size + 1))).node s.graph.size
        = ⟨default, content (s.graph.size + 1), mark⟩ := by
      rw [Graph.setContent, Graph.node_update _ _ _ hlt, hself]
    rw [Bears, this]
    exact ⟨rfl, (htag _).symm⟩
  · exact hcongr _ _ _ (fun i hi => hothers i (by omega)) hh

/-! ## Nodes from their first tokens -/

theorem takeProperties_ok {token : Token} {ts : List Token} (h : s.tokens = token :: ts)
    (ha : ∀ name, token.kind ≠ .anchor name) (ht : ∀ handle suffix, token.kind ≠ .tag handle suffix) :
    takeProperties s = .ok (⟨none, none, none, none, none⟩, s) := by
  have hanchor : ∀ p, takeAnchor p s = .ok (p, s) := fun p => by
    rw [takeAnchor, bind_ok (peek_ok h)]
    generalize token.kind = kind at ha
    cases kind with
    | anchor name => exact absurd rfl (ha name)
    | _ => rfl
  have htag : ∀ p, takeTag p s = .ok (p, s) := fun p => by
    rw [takeTag, bind_ok (peek_ok h)]
    generalize token.kind = kind at ht
    cases kind with
    | tag handle suffix => exact absurd rfl (ht handle suffix)
    | _ => rfl
  simp only [takeProperties, bind_ok (hanchor _), Option.isSome_none, Bool.false_eq_true, if_false,
    bind_ok (htag _)]
  rfl

theorem tagName_ok (mark : Mark) :
    tagName ⟨none, none, none, none, none⟩ mark s = .ok (none, s) := rfl

variable {token : Token} {ts : List Token} {budget : Nat} {place : Place}

theorem node_scalar {value : Text} {style : ScalarStyle} (h : s.tokens = token :: ts)
    (hk : token.kind = .scalar value style) :
    node (budget + 1) place s
      = scalarNode none none value style token.start { s with tokens := ts } := by
  rw [node, bind_ok (peek_ok h)]
  simp only [hk]
  rw [bind_ok (takeProperties_ok h (by simp [hk]) (by simp [hk])), bind_ok (tagName_ok _),
    bind_ok (peek_ok h)]
  simp only [hk]
  rw [bind_ok (take_ok h)]
  rfl

theorem node_flowSequence (h : s.tokens = token :: ts) (hk : token.kind = .flowSequenceStart) :
    node (budget + 1) place s = sequenceNode none none token.start (do
      let _ ← take
      flowSequence budget true token.start) s := by
  rw [node, bind_ok (peek_ok h)]
  simp only [hk]
  rw [bind_ok (takeProperties_ok h (by simp [hk]) (by simp [hk])), bind_ok (tagName_ok _),
    bind_ok (peek_ok h)]
  simp only [hk]
  rfl

theorem node_flowMapping (h : s.tokens = token :: ts) (hk : token.kind = .flowMappingStart) :
    node (budget + 1) place s = mappingNode none none token.start (do
      let _ ← take
      flowMapping budget true token.start) s := by
  rw [node, bind_ok (peek_ok h)]
  simp only [hk]
  rw [bind_ok (takeProperties_ok h (by simp [hk]) (by simp [hk])), bind_ok (tagName_ok _),
    bind_ok (peek_ok h)]
  simp only [hk]
  rfl

theorem node_blockSequence (h : s.tokens = token :: ts) (hk : token.kind = .blockSequenceStart)
    (hp : place ≠ .flow) :
    node (budget + 1) place s = sequenceNode none none token.start (do
      let _ ← take
      blockSequence budget token.start) s := by
  rw [node, bind_ok (peek_ok h)]
  simp only [hk]
  rw [bind_ok (takeProperties_ok h (by simp [hk]) (by simp [hk])), bind_ok (tagName_ok _),
    bind_ok (peek_ok h)]
  simp [hk, hp]

theorem node_blockMapping (h : s.tokens = token :: ts) (hk : token.kind = .blockMappingStart)
    (hp : place ≠ .flow) :
    node (budget + 1) place s = mappingNode none none token.start (do
      let _ ← take
      blockMapping budget token.start) s := by
  rw [node, bind_ok (peek_ok h)]
  simp only [hk]
  rw [bind_ok (takeProperties_ok h (by simp [hk]) (by simp [hk])), bind_ok (tagName_ok _),
    bind_ok (peek_ok h)]
  simp [hk, hp]

/-! ## Steps one after the other -/

variable {f : α → Composing β} {own own₁ own₂ rest : List TokenKind} {m n : Nat} {kind : TokenKind}
  {result : Nat → α} {holds holds₁ holds₂ : Graph → Nat → Prop}

theorem Adds.peek {f : Token → Composing α} (kind : TokenKind) (hfirst : own ++ rest = kind :: own₁)
    (h : ∀ token : Token, token.kind = kind → Adds schema (f token) own rest n result holds) :
    Adds schema (peek >>= f) own rest n result holds := by
  intro s hs ht
  obtain ⟨token, ts, htok, hk, -⟩ := List.map_eq_cons_iff.1 (ht.trans hfirst)
  rw [bind_ok (peek_ok htok)]
  exact h token hk s hs ht

theorem Adds.take {f : Token → Composing α}
    (h : ∀ token : Token, token.kind = kind → Adds schema (f token) own rest n result holds) :
    Adds schema (take >>= f) (kind :: own) rest n result holds := by
  intro s hs ht
  obtain ⟨token, ts, htok, hk, hts⟩ := List.map_eq_cons_iff.1 ht
  rw [bind_ok (take_ok htok)]
  obtain ⟨s', hf, ⟨h1, h2, h3, h4⟩, hh⟩ := h token hk { s with tokens := ts } hs hts
  exact ⟨s', hf, ⟨h1, h2, h3, h4⟩, hh⟩

theorem Adds.taken {f : Option Token → Composing α} {p : TokenKind → Bool} (hp : p kind = true)
    (h : ∀ token : Token, Adds schema (f (some token)) own rest n result holds) :
    Adds schema (takeIf p >>= f) (kind :: own) rest n result holds := by
  intro s hs ht
  obtain ⟨token, ts, htok, hk, hts⟩ := List.map_eq_cons_iff.1 ht
  rw [bind_ok (takeIf_yes htok (by rw [hk, hp]))]
  obtain ⟨s', hf, ⟨h1, h2, h3, h4⟩, hh⟩ := h token { s with tokens := ts } hs hts
  exact ⟨s', hf, ⟨h1, h2, h3, h4⟩, hh⟩

theorem Adds.pure (rest : List TokenKind) (a : α) :
    Adds schema (Pure.pure a) [] rest 0 (fun _ => a) fun _ _ => True := fun s _ ht =>
  ⟨s, rfl, ⟨ht, rfl, rfl, fun _ _ => rfl⟩, trivial⟩

theorem Adds.map (h : Adds schema x own rest n result holds) (f : α → β) :
    Adds schema (f <$> x) own rest n (fun id => f (result id)) holds := by
  intro s hs ht
  obtain ⟨s', hx, hf, hh⟩ := h s hs ht
  exact ⟨s', map_ok hx f, hf, hh⟩

/-- A step that is known once its first token is. -/
theorem Adds.of_first {y : Token → Composing α} (hfirst : own ++ rest = kind :: own₁)
    (heq : ∀ (s : Composer) token ts, s.tokens = token :: ts → token.kind = kind → x s = y token s)
    (h : ∀ token, Adds schema (y token) own rest n result holds) :
    Adds schema x own rest n result holds := by
  intro s hs ht
  obtain ⟨token, ts, htok, hk, -⟩ := List.map_eq_cons_iff.1 (ht.trans hfirst)
  rw [heq s token ts htok hk]
  exact h token s hs ht


theorem Adds.bind {result₂ : Nat → Nat → β} (h : Adds schema x own₁ (own₂ ++ rest) m result holds₁)
    (hcongr : ∀ g g' id, (∀ i, i < id + m → g'.node i = g.node i) → holds₁ g id → holds₁ g' id)
    (hf : ∀ id, Adds schema (f (result id)) own₂ rest n (result₂ id) holds₂) :
    Adds schema (x >>= f) (own₁ ++ own₂) rest (m + n) (fun id => result₂ id (id + m))
      fun g id => holds₁ g id ∧ holds₂ g (id + m) := by
  intro s hs ht
  obtain ⟨s₁, hx, hf₁, h₁⟩ := h s hs (by rw [ht, List.append_assoc])
  obtain ⟨s₂, hy, hf₂, h₂⟩ := hf s.graph.size s₁ (hf₁.schema.trans hs) hf₁.tokens
  rw [hf₁.grown] at hy h₂
  refine ⟨s₂, by rw [bind_ok hx, hy], hf₁.trans hf₂, hcongr _ _ _ (fun i hi => ?_) h₁, h₂⟩
  exact hf₂.kept i (by rwa [hf₁.grown])

theorem Adds.congr {own' : List TokenKind} {n' : Nat} {result' : Nat → α}
    {holds' : Graph → Nat → Prop} (h : Adds schema x own rest n result holds) (hown : own = own')
    (hn : n = n') (hr : ∀ id, result id = result' id) (hh : ∀ g id, holds g id → holds' g id) :
    Adds schema x own' rest n' result' holds' := by
  subst hown hn
  intro s hs ht
  obtain ⟨s', hx, hf, h'⟩ := h s hs ht
  exact ⟨s', by rw [hx, hr], hf, hh _ _ h'⟩

/-! ## The nodes of an outline -/

/-- An outline with tokens begins with one that does not end what is around it. -/
theorem kinds_head {o : Outline} (h : o.Sound) (hne : o ≠ .leaf .nothing) :
    ∃ kind ks, o.kinds = kind :: ks ∧ kind ≠ .blockEntry ∧ kind ≠ .blockEnd
      ∧ endsMappingPart kind = false := by
  cases o with
  | leaf last =>
    cases last with
    | nothing => exact absurd rfl hne
    | formula e => exact h.elim
    | _ => exact ⟨_, _, rfl, by simp, by simp, by simp [endsMappingPart]⟩
  | list items => exact ⟨_, _, rfl, by simp, by simp, by simp [endsMappingPart]⟩
  | map entries => exact ⟨_, _, rfl, by simp, by simp, by simp [endsMappingPart]⟩

/-- The node at a place, once it is known to be put together there. -/
def NodeAdds (schema : Tag.Schema) (o : Outline) : Prop :=
  o ≠ .leaf .nothing → ∀ ⦃budget : Nat⦄ ⦃place : Place⦄ (rest : List TokenKind),
    o.kinds.length < budget → place ≠ .flow →
      Adds schema (node budget place) o.kinds rest o.size (fun id => id) fun g id => Holds schema g id o

theorem sequenceNode_adds {items : Composing (List NodeId)} {ids : Nat → List NodeId} (mark : Mark)
    (h : Adds schema items own rest n ids holds)
    (hcongr : ∀ g g' id, (∀ i : Nat, id ≤ i → g'.node i = g.node i) → holds g id → holds g' id) :
    Adds schema (sequenceNode none none mark items) own rest (1 + n) (fun id => id)
      fun g id => Bears schema g id (.sequence (ids (id + 1))) ∧ holds g (id + 1) :=
  collectionNode_adds .seq (.sequence []) mark (fun _ => rfl) (h.map NodeContent.sequence) hcongr

theorem mappingNode_adds {entries : Composing (List NodeEntry)} {ids : Nat → List NodeEntry}
    (mark : Mark) (h : Adds schema entries own rest n ids holds)
    (hcongr : ∀ g g' id, (∀ i : Nat, id ≤ i → g'.node i = g.node i) → holds g id → holds g' id) :
    Adds schema (mappingNode none none mark entries) own rest (1 + n) (fun id => id)
      fun g id => Bears schema g id (.mapping (ids (id + 1))) ∧ holds g (id + 1) :=
  collectionNode_adds .map (.mapping []) mark (fun _ => rfl) (h.map NodeContent.mapping) hcongr

theorem leaf_adds {last : LineEnd} (h : last.Sound) : NodeAdds schema (.leaf last) := by
  intro hne budget place rest hb hp
  have scalar : ∀ value style, 0 < budget → Adds schema (node budget place) [.scalar value style]
      rest 1 (fun id => id) fun g id => Bears schema g id (.scalar value style) := by
    intro value style hb s hs ht
    obtain ⟨budget, rfl⟩ : ∃ b, budget = b + 1 := ⟨budget - 1, by omega⟩
    obtain ⟨token, ts, htok, hk, hts⟩ := List.map_eq_cons_iff.1 ht
    rw [node_scalar htok hk]
    obtain ⟨s', hx, ⟨h1, h2, h3, h4⟩, hh⟩ := scalarNode_adds value style token.start rest
      { s with tokens := ts } hs hts
    exact ⟨s', hx, ⟨h1, h2, h3, h4⟩, hh⟩
  cases last with
  | nothing => exact absurd rfl hne
  | formula e => exact h.elim
  | word w => exact scalar w.value w.style (by omega)
  | literal keeps lines => exact scalar (Scalar.blockValue keeps lines) .literal (by omega)
  | brackets =>
    obtain ⟨budget, rfl⟩ : ∃ b, budget = b + 1 + 1 := ⟨budget - 2, by
      simp [kinds, LineEnd.kinds] at hb; omega⟩
    have hread : ∀ since, Adds schema (do let _ ← take; flowSequence (budget + 1) true since)
        [.flowSequenceStart, .flowSequenceEnd] rest 0 (fun _ => []) fun _ _ => True := fun since => by
      rw [flowSequence]
      exact Adds.take fun _ _ => Adds.taken (by simp) fun _ => Adds.pure rest []
    intro s hs ht
    obtain ⟨s', hx, hf, hh, -⟩ := Adds.of_first rfl (fun s token ts => node_flowSequence)
      (fun token => sequenceNode_adds token.start (hread token.start) fun _ _ _ _ h => h) s hs ht
    exact ⟨s', hx, hf, hh⟩
  | braces =>
    obtain ⟨budget, rfl⟩ : ∃ b, budget = b + 1 + 1 := ⟨budget - 2, by
      simp [kinds, LineEnd.kinds] at hb; omega⟩
    have hread : ∀ since, Adds schema (do let _ ← take; flowMapping (budget + 1) true since)
        [.flowMappingStart, .flowMappingEnd] rest 0 (fun _ => []) fun _ _ => True := fun since => by
      rw [flowMapping]
      exact Adds.take fun _ _ => Adds.taken (by simp) fun _ => Adds.pure rest []
    intro s hs ht
    obtain ⟨s', hx, hf, hh, -⟩ := Adds.of_first rfl (fun s token ts => node_flowMapping)
      (fun token => mappingNode_adds token.start (hread token.start) fun _ _ _ _ h => h) s hs ht
    exact ⟨s', hx, hf, hh⟩

theorem noItems_adds {budget : Nat} (hb : 0 < budget) (since : Mark) (rest : List TokenKind) :
    Adds schema (blockSequence budget since) [.blockEnd] rest 0 (fun _ => []) fun _ _ => True := by
  obtain ⟨budget, rfl⟩ : ∃ b, budget = b + 1 := ⟨budget - 1, by omega⟩
  rw [blockSequence]
  refine Adds.take fun token hk => ?_
  simp only [hk]
  exact Adds.pure rest []

theorem item_adds {item : Outline} {items : List Outline} {budget : Nat} (hsound : item.Sound)
    (hi : NodeAdds schema item) (since : Mark)
    (hrest : Adds schema (blockSequence budget since) (itemKinds items ++ [.blockEnd]) rest
      (sizeItems items) (fun id => itemIds id items) fun g id => HoldsItems schema g id items)
    (hb : item.kinds.length < budget) :
    Adds schema (blockSequence (budget + 1) since) (itemKinds (item :: items) ++ [.blockEnd]) rest
      (sizeItems (item :: items)) (fun id => itemIds id (item :: items))
      fun g id => HoldsItems schema g id (item :: items) := by
  have later : ∀ id, Adds schema (do return id :: (← blockSequence budget since))
      (itemKinds items ++ [.blockEnd]) rest (sizeItems items) (fun id' => id :: itemIds id' items)
      fun g id => HoldsItems schema g id items := fun id => by
    simp only [bind_pure_comp]
    exact hrest.map (id :: ·)
  rw [blockSequence]
  simp only [itemKinds, List.append_assoc, List.singleton_append, sizeItems]
  refine Adds.take fun token hk => ?_
  simp only [hk]
  by_cases hne : item = .leaf .nothing
  · subst hne
    obtain ⟨kind, ks, hks, hkind⟩ : ∃ kind ks, itemKinds items ++ [.blockEnd] = kind :: ks
        ∧ (kind = .blockEntry ∨ kind = .blockEnd) := by
      cases items with
      | nil => exact ⟨_, _, rfl, .inr rfl⟩
      | cons => exact ⟨_, _, rfl, .inl rfl⟩
    have hfirst : itemKinds items ++ [.blockEnd] ++ rest = kind :: (ks ++ rest) := by rw [hks]; rfl
    refine Adds.peek kind hfirst fun next hn => ?_
    rw [if_pos (by rwa [hn])]
    have := (emptyNode_adds token.finish _).bind
      (fun g g' id h => bears_congr (h id (Nat.lt_succ_self id))) later
    exact this
  · obtain ⟨kind, ks, hks, hentry, hend, -⟩ := kinds_head hsound hne
    refine Adds.peek kind (by rw [hks]; rfl) fun next hn => ?_
    rw [if_neg (by rw [hn]; simp [hentry, hend])]
    have := (hi hne _ hb (show Place.block ≠ .flow by decide)).bind
      (fun g g' id h => holds_congr item id fun i _ hlt => h i hlt) later
    exact this

theorem mappingPart_adds {o : Outline} {budget : Nat} (hsound : o.Sound) (ho : NodeAdds schema o)
    (hb : o.kinds.length + 1 < budget) (indicator : Token)
    (hends : kind = .key ∨ kind = .value ∨ kind = .blockEnd) :
    Adds schema (mappingPart budget indicator) o.kinds (kind :: rest) o.size (fun id => id)
      fun g id => Holds schema g id o := by
  obtain ⟨budget, rfl⟩ : ∃ b, budget = b + 1 := ⟨budget - 1, by omega⟩
  rw [mappingPart]
  by_cases hne : o = .leaf .nothing
  · subst hne
    refine Adds.peek kind (show [] ++ kind :: rest = kind :: rest from rfl) fun next hn => ?_
    rw [if_pos (by rw [hn]; rcases hends with rfl | rfl | rfl <;> rfl)]
    exact emptyNode_adds indicator.finish _
  · obtain ⟨first, ks, hks, -, -, hfirst⟩ := kinds_head hsound hne
    refine Adds.peek first (by rw [hks]; rfl) fun next hn => ?_
    rw [if_neg (by simp [hn, hfirst])]
    exact ho hne _ (by omega) (by decide)

theorem noEntries_adds {budget : Nat} (hb : 0 < budget) (since : Mark) (rest : List TokenKind) :
    Adds schema (blockMapping budget since) [.blockEnd] rest 0 (fun _ => []) fun _ _ => True := by
  obtain ⟨budget, rfl⟩ : ∃ b, budget = b + 1 := ⟨budget - 1, by omega⟩
  rw [blockMapping]
  refine Adds.take fun token hk => ?_
  simp only [hk]
  exact Adds.pure rest []

theorem entry_adds {key : Word} {value : Outline} {entries : List (Word × Outline)} {budget : Nat}
    (hkey : key.Sound) (hsound : value.Sound) (hv : NodeAdds schema value) (since : Mark)
    (hrest : Adds schema (blockMapping budget since) (entryKinds entries ++ [.blockEnd]) rest
      (sizeEntries entries) (fun id => entryIds id entries)
      fun g id => HoldsEntries schema g id entries)
    (hb : value.kinds.length + 2 < budget) :
    Adds schema (blockMapping (budget + 1) since) (entryKinds ((key, value) :: entries) ++ [.blockEnd])
      rest (sizeEntries ((key, value) :: entries)) (fun id => entryIds id ((key, value) :: entries))
      fun g id => HoldsEntries schema g id ((key, value) :: entries) := by
  obtain ⟨kind, ks, hks, hkind⟩ : ∃ kind ks, entryKinds entries ++ [.blockEnd] ++ rest = kind :: ks
      ∧ (kind = .key ∨ kind = .value ∨ kind = .blockEnd) := by
    cases entries with
    | nil => exact ⟨_, _, rfl, .inr (.inr rfl)⟩
    | cons => exact ⟨_, _, rfl, .inl rfl⟩
  have hlater : ∀ k v, Adds schema (do return (k, v) :: (← blockMapping budget since))
      (entryKinds entries ++ [.blockEnd]) rest (sizeEntries entries)
      (fun id => (k, v) :: entryIds id entries)
      fun g id => HoldsEntries schema g id entries := fun k v => by
    simp only [bind_pure_comp]
    exact hrest.map ((k, v) :: ·)
  have hvalue : ∀ k (colon : Token), Adds schema (do
      let v ← mappingPart budget colon
      return (k, v) :: (← blockMapping budget since))
      (value.kinds ++ (entryKinds entries ++ [.blockEnd])) rest (value.size + sizeEntries entries)
      (fun id => (k, id) :: entryIds (id + value.size) entries)
      fun g id => Holds schema g id value ∧ HoldsEntries schema g (id + value.size) entries :=
    fun k colon => (hks ▸ mappingPart_adds hsound hv (by omega) colon hkind).bind
      (fun g g' id h => holds_congr value id fun i _ hlt => h i hlt) (hlater k)
  rw [blockMapping]
  refine Adds.take fun token hk => ?_
  simp only [hk]
  have hpart : Adds schema (mappingPart budget token) [.scalar key.value key.style]
      ((.value :: (value.kinds ++ (entryKinds entries ++ [.blockEnd]))) ++ rest) 1 (fun id => id)
      fun g id => Bears schema g id (.scalar key.value key.style) :=
    mappingPart_adds (o := .leaf (.word key)) hkey (leaf_adds hkey)
      (show 1 + 1 < budget by omega) token (.inr (.inl rfl))
  refine (hpart.bind (fun g g' id h => bears_congr (h id (Nat.lt_succ_self id))) fun k =>
    Adds.taken (by simp) fun colon => hvalue k colon).congr (by simp)
      (Nat.add_assoc ..).symm (fun id => ?_) fun g id h => ?_
  · simp only [Nat.add_assoc]
    rfl
  · simp only [Nat.add_assoc] at h
    exact h

theorem list_adds {items : List Outline} (h : ∀ {budget : Nat} (since : Mark)
      (rest : List TokenKind), (itemKinds items).length < budget →
      Adds schema (blockSequence budget since) (itemKinds items ++ [.blockEnd]) rest
        (sizeItems items) (fun id => itemIds id items) fun g id => HoldsItems schema g id items) :
    NodeAdds schema (.list items) := by
  intro _ budget place rest hb hp
  obtain ⟨budget, rfl⟩ : ∃ b, budget = b + 1 := ⟨budget - 1, by omega⟩
  have hread : ∀ since, Adds schema (do let _ ← take; blockSequence budget since)
      (.blockSequenceStart :: (itemKinds items ++ [.blockEnd])) rest (sizeItems items)
      (fun id => itemIds id items) fun g id => HoldsItems schema g id items := fun since =>
    Adds.take fun _ _ => h since rest (by simp [kinds] at hb; omega)
  intro s hs ht
  obtain ⟨s', hx, hf, hh⟩ := Adds.of_first rfl (fun s token ts ht hk => node_blockSequence ht hk hp)
    (fun token => sequenceNode_adds token.start (hread token.start)
      fun g g' id hn => holdsItems_congr items id fun i hi _ => hn i hi) s hs ht
  exact ⟨s', hx, hf, hh⟩

theorem map_adds {entries : List (Word × Outline)} (h : ∀ {budget : Nat} (since : Mark)
      (rest : List TokenKind), (entryKinds entries).length < budget →
      Adds schema (blockMapping budget since) (entryKinds entries ++ [.blockEnd]) rest
        (sizeEntries entries) (fun id => entryIds id entries)
        fun g id => HoldsEntries schema g id entries) :
    NodeAdds schema (.map entries) := by
  intro _ budget place rest hb hp
  obtain ⟨budget, rfl⟩ : ∃ b, budget = b + 1 := ⟨budget - 1, by omega⟩
  have hread : ∀ since, Adds schema (do let _ ← take; blockMapping budget since)
      (.blockMappingStart :: (entryKinds entries ++ [.blockEnd])) rest (sizeEntries entries)
      (fun id => entryIds id entries) fun g id => HoldsEntries schema g id entries := fun since =>
    Adds.take fun _ _ => h since rest (by simp [kinds] at hb; omega)
  intro s hs ht
  obtain ⟨s', hx, hf, hh⟩ := Adds.of_first rfl (fun s token ts ht hk => node_blockMapping ht hk hp)
    (fun token => mappingNode_adds token.start (hread token.start)
      fun g g' id hn => holdsEntries_congr entries id fun i hi _ => hn i hi) s hs ht
  exact ⟨s', hx, hf, hh⟩

mutual

theorem node_adds : ∀ o : Outline, o.Sound → NodeAdds schema o
  | .leaf _, h => leaf_adds h
  | .list items, h => list_adds fun since rest => items_adds items h.2 _ since rest
  | .map entries, h => map_adds fun since rest => entries_adds entries h.2 _ since rest

theorem items_adds : ∀ items : List Outline, SoundItems items →
    ∀ (budget : Nat) (since : Mark) (rest : List TokenKind), (itemKinds items).length < budget →
      Adds schema (blockSequence budget since) (itemKinds items ++ [.blockEnd]) rest
        (sizeItems items) (fun id => itemIds id items) fun g id => HoldsItems schema g id items
  | [], _, _, since, rest, hb => noItems_adds (by omega) since rest
  | item :: items, h, 0, _, _, hb => absurd hb (by omega)
  | item :: items, h, budget + 1, since, rest, hb => by
    simp only [itemKinds, List.length_append, List.length_singleton] at hb
    exact item_adds h.1 (node_adds item h.1) since
      (items_adds items h.2 budget since rest (by omega)) (by omega)

theorem entries_adds : ∀ entries : List (Word × Outline), SoundEntries entries →
    ∀ (budget : Nat) (since : Mark) (rest : List TokenKind), (entryKinds entries).length < budget →
      Adds schema (blockMapping budget since) (entryKinds entries ++ [.blockEnd]) rest
        (sizeEntries entries) (fun id => entryIds id entries)
        fun g id => HoldsEntries schema g id entries
  | [], _, _, since, rest, hb => noEntries_adds (by omega) since rest
  | (_, value) :: entries, h, 0, _, _, hb => absurd hb (by omega)
  | (_, value) :: entries, h, budget + 1, since, rest, hb => by
    simp only [entryKinds, List.length_append, List.length_cons, List.length_nil] at hb
    exact entry_adds h.1.1 h.2.1 (node_adds value h.2.1) since
      (entries_adds entries h.2.2 budget since rest (by omega)) (by omega)

end

/-! ## Whole texts -/

/-- At the end of a text no document starts. -/
theorem rootAndEnd_ok {root : Composing NodeId} {id : NodeId} (budget : Nat)
    (h : root s = .ok (id, s₁)) (ht : s₁.tokens.map (·.kind) = [.streamEnd]) :
    rootAndEnd budget root s = .ok (id, s₁) := by
  obtain ⟨token, ts, htok, hk, -⟩ := List.map_eq_cons_iff.1 ht
  have hno : takeIf (· = .documentEnd) s₁ = .ok (none, s₁) := takeIf_no htok (by simp [hk])
  have hskip : skipDocumentEnds budget s₁ = .ok ((), s₁) := by
    cases budget with
    | zero => rfl
    | succ budget =>
      rw [skipDocumentEnds, bind_ok hno]
      rfl
  have hstart : documentStart budget s₁ = .ok (none, s₁) := by
    rw [documentStart, bind_ok hskip, bind_ok (peek_ok htok), if_pos hk]
    rfl
  rw [rootAndEnd, bind_ok h, bind_ok hno, bind_ok hstart]
  rfl

theorem document_ok {o : Outline} {budget : Nat} (h : o.Sound) (hne : o ≠ .leaf .nothing)
    (hs : s.schema = schema) (hg : s.graph = .empty)
    (ht : s.tokens.map (·.kind) = [.streamStart] ++ o.kinds ++ [.streamEnd])
    (hb : o.kinds.length < budget) :
    ∃ s', document budget s = .ok (some 0, s') ∧ s'.graph.size = o.size
      ∧ Holds schema s'.graph 0 o := by
  obtain ⟨start, ts, htok, -, hts⟩ := List.map_eq_cons_iff.1 ht
  obtain ⟨kind, ks, hks, -⟩ := kinds_head h hne
  obtain ⟨first, ts', htok', hk, -⟩ := List.map_eq_cons_iff.1 (hts.trans (by rw [hks]; rfl))
  obtain ⟨s', hx, hf, hh⟩ := node_adds o h hne [.streamEnd] hb (show Place.block ≠ .flow by decide)
    { s with tokens := ts } hs hts
  have hempty : s.graph.size = 0 := by rw [hg]; rfl
  simp only [hempty] at hx hh
  have hbegins : beginsImplicitly first.kind = true := by
    rw [hk]
    cases o with
    | leaf last =>
      cases last with
      | nothing => exact absurd rfl hne
      | formula e => exact h.elim
      | _ => obtain ⟨rfl, -⟩ := List.cons.inj hks; rfl
    | list items => obtain ⟨rfl, -⟩ := List.cons.inj hks; rfl
    | map entries => obtain ⟨rfl, -⟩ := List.cons.inj hks; rfl
  refine ⟨s', ?_, ?_, hh⟩
  · rw [document, bind_ok (take_ok htok), bind_ok (peek_ok (s := { s with tokens := ts }) htok'),
      if_pos hbegins, bind_ok (rootAndEnd_ok budget hx hf.tokens)]
    rfl
  · simpa [hempty] using hf.grown

end Composer

namespace Outline

variable {schema : Tag.Schema}

/-- The graph of a text with the tokens of an outline. -/
theorem graph_of_tokens {o : Outline} {text : Text} (h : o.Sound) (hne : o ≠ leaf .nothing)
    (ht : ∃ tokens, TokenStream.ofText text = ⟨tokens, none⟩
      ∧ tokens.map (·.kind) = [.streamStart] ++ o.kinds ++ [.streamEnd]) :
    ∃ g, Graph.ofText schema text = .ok (some (g, 0)) ∧ g.size = o.size ∧ Holds schema g 0 o := by
  obtain ⟨tokens, htok, hk⟩ := ht
  have hlen : tokens.length = o.kinds.length + 2 := by
    rw [← List.length_map (·.kind), hk]
    simp
  obtain ⟨s', hd, hsize, hh⟩ := Composer.document_ok
    (s := ⟨tokens, .fault (.alone .endOfStream ⟨text.length, 0, 0⟩), schema,
      Composer.defaultHandles, [], .empty⟩) h hne rfl rfl hk
    (show o.kinds.length < 4 * tokens.length + 8 by omega)
  refine ⟨s'.graph, ?_, hsize, hh⟩
  rw [Graph.ofText]
  simp only [htok, Option.getD_none, hd]
  rfl

theorem graph_write (schema : Tag.Schema) {o : Outline} (h : o.Sound) (hroot : ∀ last, o ≠ leaf last) :
    ∃ g, Graph.ofText schema (o.write .start 0) = .ok (some (g, 0)) ∧ g.size = o.size
      ∧ Holds schema g 0 o :=
  graph_of_tokens h (hroot _) (tokenStream_write h hroot)

theorem graph_word (schema : Tag.Schema) {w : Word} (h : w.Sound) (hs : w.style ≠ .plain) :
    ∃ g, Graph.ofText schema w.written = .ok (some (g, 0)) ∧ g.size = 1
      ∧ Bears schema g 0 (.scalar w.value w.style) :=
  graph_of_tokens (o := leaf (.word w)) h (by simp) (tokenStream_word h hs)

end Outline

end ModernControls.Yaml
