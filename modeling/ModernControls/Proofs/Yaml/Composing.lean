import ModernControls.Proofs.Yaml.Streams
import ModernControls.Yaml.Graph.OfText

/-!
# Graphs of any text

The nodes of a text are put together from its tokens. What goes wrong there is a fault, or it is
what ended the tokens: so a text whose tokens end with a report has a graph or a report, and a text
whose tokens end before the text does has none.

Results:
- `Composer.allWatch`: what the readers of nodes end with, by induction on their budget;
- `Graph.ofText_reported`: why a text has no graph;
- `Graph.ofText_endless`: a text whose tokens break off has no graph.
-/

namespace ModernControls.Yaml

namespace Composer

variable {α β : Type}

/-- What is watched while nodes are put together: what holds of the tokens that are left and of
what ended them, as long as tokens are only used up, and what refusals are then like. -/
structure Watch where
  holds : List Token → Error → Prop
  refused : Error → Prop
  fault : ∀ f : Fault, refused (.fault f)
  failure : ∀ {tokens e}, holds tokens e → refused e
  rest : ∀ {token tokens e}, holds (token :: tokens) e → holds tokens e

variable {w : Watch}

/-- A step of putting nodes together that keeps what is watched. -/
abbrev Watches (w : Watch) (step : Composing α) : Prop :=
  Keeps w.refused (fun s => w.holds s.tokens s.failure) step fun _ => True

/-! ## Tokens -/

theorem watches_bind {step : Composing α} {next : α → Composing β} (h : Watches w step)
    (hn : ∀ a, Watches w (next a)) : Watches w (step >>= next) := Keeps.bind h fun a _ => hn a

theorem watches_pure (a : α) : Watches w (Pure.pure a) := Keeps.pure trivial

theorem watches_get : Watches w MonadState.get := Keeps.mono Keeps.get fun _ _ => trivial

theorem watches_raise (fault : Fault) : Watches w (raise fault : Composing α) :=
  fun _ _ => w.fault fault

/-- What happens when the budget is used up. -/
theorem watches_fail : Watches w (do fail (← MonadState.get).failure : Composing α) :=
  Keeps.bind Keeps.get fun _ hs _ _ => w.failure hs

theorem watches_peek : Watches w peek := by
  intro s hs
  rw [peek]
  split
  · exact ⟨hs, trivial⟩
  · exact w.failure hs

theorem watches_take : Watches w take := by
  intro s hs
  rw [take]
  split
  · next token rest ht =>
    rw [ht] at hs
    exact ⟨w.rest hs, trivial⟩
  · exact w.failure hs

theorem watches_ite {p : Prop} [Decidable p] {x y : Composing α} (hx : Watches w x)
    (hy : Watches w y) : Watches w (if p then x else y) := by
  split
  · exact hx
  · exact hy

theorem watches_takeIf (p : TokenKind → Bool) : Watches w (takeIf p) :=
  watches_bind watches_peek fun _ =>
    watches_ite (watches_bind watches_take fun _ => watches_pure _) (watches_pure _)

/-- One more before those that are still to come. -/
theorem watches_cons {first : Composing β} {one : β → α} {rest : Composing (List α)}
    (hf : Watches w first) (hr : Watches w rest) :
    Watches w (do return one (← first) :: (← rest)) :=
  watches_bind hf fun _ => watches_bind hr fun _ => watches_pure _

/-- What comes after a separator, which may be missing before the first item. -/
theorem watches_separated {p : Prop} [Decidable p] {separator : TokenKind → Bool}
    {fault : Token → Fault} {next : Composing α} (h : Watches w next) :
    Watches w (if p then do
        let found ← takeIf separator
        if found.isNone = true then do
          let token ← peek
          let _ ← (raise (fault token) : Composing PUnit)
          next
        else next
      else next) := by
  refine watches_ite (watches_bind (watches_takeIf _) fun _ => watches_ite ?_ h) h
  exact watches_bind watches_peek fun _ => watches_bind (watches_raise _) fun _ => h

/-! ## Single nodes -/

theorem watches_takeAnchor (p : Properties) : Watches w (takeAnchor p) := by
  refine watches_bind watches_peek fun token => ?_
  split
  · exact watches_bind watches_take fun _ => watches_pure _
  · exact watches_pure _

theorem watches_takeTag (p : Properties) : Watches w (takeTag p) := by
  refine watches_bind watches_peek fun token => ?_
  split
  · exact watches_bind watches_take fun _ => watches_pure _
  · exact watches_pure _

theorem watches_takeProperties : Watches w takeProperties :=
  watches_bind (watches_takeAnchor _) fun p => watches_ite (watches_takeTag p) <|
    watches_bind (watches_takeTag p) fun p => watches_ite (watches_takeAnchor p) (watches_pure p)

theorem watches_tagName (p : Properties) (mark : Mark) : Watches w (tagName p mark) := by
  rw [tagName.eq_def]
  split
  · exact watches_pure _
  · exact watches_pure _
  · refine watches_bind watches_get fun s => ?_
    split
    · exact watches_pure _
    · exact watches_raise _

theorem watches_checkAnchor (anchor : Option Text) (mark : Mark) :
    Watches w (checkAnchor anchor mark) := by
  cases anchor with
  | none => exact watches_pure _
  | some name =>
    refine watches_bind watches_get fun s => ?_
    split
    · exact watches_raise _
    · exact watches_pure _

theorem watches_putAnchor (anchor : Option Text) (id : NodeId) :
    Watches w (putAnchor anchor id) := by
  cases anchor with
  | none => exact watches_pure _
  | some name => exact Keeps.modify (fun _ hs => hs) trivial

theorem watches_newNode (node : Node) : Watches w (newNode node) := fun _ hs => ⟨hs, trivial⟩

theorem watches_scalarNode (anchor name : Option Text) (value : Text) (style : ScalarStyle)
    (mark : Mark) : Watches w (scalarNode anchor name value style mark) :=
  watches_bind (watches_checkAnchor anchor mark) fun _ => watches_bind watches_get fun _ =>
    watches_bind (watches_newNode _) fun id =>
      watches_bind (watches_putAnchor anchor id) fun _ => watches_pure _

theorem watches_emptyNode (mark : Mark) : Watches w (emptyNode mark) :=
  watches_scalarNode _ _ _ _ mark

theorem watches_aliasNode (name : Text) (mark : Mark) : Watches w (aliasNode name mark) := by
  refine watches_bind watches_get fun s => ?_
  split
  · exact watches_pure _
  · exact watches_raise _

theorem watches_collectionNode {read : Composing NodeContent} (h : Watches w read)
    (anchor name : Option Text) (default : Tag) (hollow : NodeContent) (mark : Mark) :
    Watches w (collectionNode anchor name default hollow mark read) :=
  watches_bind (watches_checkAnchor anchor mark) fun _ => watches_bind (watches_newNode _) fun id =>
    watches_bind (watches_putAnchor anchor id) fun _ => watches_bind h fun _ =>
      watches_bind (Keeps.modify (fun _ hs => hs) trivial) fun _ => watches_pure _

theorem watches_sequenceNode {items : Composing (List NodeId)} (h : Watches w items)
    (anchor name : Option Text) (mark : Mark) : Watches w (sequenceNode anchor name mark items) :=
  watches_collectionNode (Keeps.map h) _ _ _ _ _

theorem watches_mappingNode {entries : Composing (List NodeEntry)} (h : Watches w entries)
    (anchor name : Option Text) (mark : Mark) : Watches w (mappingNode anchor name mark entries) :=
  watches_collectionNode (Keeps.map h) _ _ _ _ _

/-! ## Nodes in nodes -/

/-- What all readers of nodes with a budget do. -/
structure AllWatch (w : Watch) (budget : Nat) : Prop where
  node (place : Place) : Watches w (node budget place)
  blockSequence (since : Mark) : Watches w (blockSequence budget since)
  indentlessSequence : Watches w (indentlessSequence budget)
  mappingPart (indicator : Token) : Watches w (mappingPart budget indicator)
  blockMapping (since : Mark) : Watches w (blockMapping budget since)
  flowPart (indicator : Token) (ends : List TokenKind) : Watches w (flowPart budget indicator ends)
  flowValue (close : TokenKind) : Watches w (flowValue budget close)
  flowSequence (isFirst : Bool) (since : Mark) : Watches w (flowSequence budget isFirst since)
  flowMapping (isFirst : Bool) (since : Mark) : Watches w (flowMapping budget isFirst since)

section Readers

variable {budget : Nat} (h : AllWatch w budget)
include h

theorem watches_node (place : Place) : Watches w (node (budget + 1) place) := by
  rw [node]
  refine watches_bind watches_peek fun first => ?_
  split
  · exact watches_bind watches_take fun _ => watches_aliasNode _ _
  · refine watches_bind watches_takeProperties fun p =>
      watches_bind (watches_tagName p _) fun name => watches_bind watches_peek fun token => ?_
    dsimp only
    split
    · exact watches_bind watches_take fun _ => watches_scalarNode _ _ _ _ _
    · exact watches_sequenceNode (watches_bind watches_take fun _ => h.flowSequence _ _) _ _ _
    · exact watches_mappingNode (watches_bind watches_take fun _ => h.flowMapping _ _) _ _ _
    · refine watches_ite (watches_sequenceNode h.indentlessSequence _ _ _) ?_
      refine watches_ite
        (watches_sequenceNode (watches_bind watches_take fun _ => h.blockSequence _) _ _ _) ?_
      refine watches_ite
        (watches_mappingNode (watches_bind watches_take fun _ => h.blockMapping _) _ _ _) ?_
      exact watches_ite (watches_scalarNode _ _ _ _ _) (watches_raise _)

theorem watches_blockSequence (since : Mark) : Watches w (blockSequence (budget + 1) since) := by
  rw [blockSequence]
  refine watches_bind watches_take fun token => ?_
  split
  · refine watches_bind watches_peek fun next => watches_ite ?_ ?_
    · exact watches_cons (watches_emptyNode _) (h.blockSequence since)
    · exact watches_cons (h.node .block) (h.blockSequence since)
  · exact watches_pure _
  · exact watches_raise _

theorem watches_indentlessSequence : Watches w (indentlessSequence (budget + 1)) := by
  rw [indentlessSequence]
  refine watches_bind (watches_takeIf _) fun found => ?_
  split
  · refine watches_bind watches_peek fun next => watches_ite ?_ ?_
    · exact watches_cons (watches_emptyNode _) h.indentlessSequence
    · exact watches_cons (h.node .block) h.indentlessSequence
  · exact watches_pure _

theorem watches_mappingPart (indicator : Token) :
    Watches w (mappingPart (budget + 1) indicator) := by
  rw [mappingPart]
  exact watches_bind watches_peek fun _ => watches_ite (watches_emptyNode _) (h.node _)

theorem watches_blockMapping (since : Mark) : Watches w (blockMapping (budget + 1) since) := by
  rw [blockMapping]
  refine watches_bind watches_take fun token => ?_
  split
  · refine watches_bind (h.mappingPart _) fun key =>
      watches_bind (watches_takeIf _) fun found => ?_
    split
    · exact watches_cons (h.mappingPart _) (h.blockMapping since)
    · refine watches_bind watches_peek fun next => ?_
      exact watches_cons (watches_emptyNode _) (h.blockMapping since)
  · exact watches_pure _
  · exact watches_raise _

theorem watches_flowPart (indicator : Token) (ends : List TokenKind) :
    Watches w (flowPart (budget + 1) indicator ends) := by
  rw [flowPart]
  exact watches_bind watches_peek fun _ => watches_ite (watches_emptyNode _) (h.node _)

theorem watches_flowValue (close : TokenKind) : Watches w (flowValue (budget + 1) close) := by
  rw [flowValue]
  refine watches_bind (watches_takeIf _) fun found => ?_
  split
  · exact h.flowPart _ _
  · exact watches_bind watches_peek fun _ => watches_emptyNode _

theorem watches_flowSequence (isFirst : Bool) (since : Mark) :
    Watches w (flowSequence (budget + 1) isFirst since) := by
  rw [flowSequence]
  refine watches_bind (watches_takeIf _) fun found => watches_ite (watches_pure _) ?_
  refine watches_separated (watches_bind watches_peek fun token =>
    watches_ite ?_ (watches_ite ?_ ?_))
  · exact watches_bind watches_take fun _ => watches_bind (h.flowPart _ _) fun _ =>
      watches_bind (h.flowValue _) fun _ => watches_cons (watches_newNode _) (h.flowSequence _ _)
  · exact watches_bind watches_take fun _ => watches_pure _
  · exact watches_cons (h.node _) (h.flowSequence _ _)

theorem watches_flowMapping (isFirst : Bool) (since : Mark) :
    Watches w (flowMapping (budget + 1) isFirst since) := by
  rw [flowMapping]
  refine watches_bind (watches_takeIf _) fun found => watches_ite (watches_pure _) ?_
  refine watches_separated (watches_bind watches_peek fun token =>
    watches_ite ?_ (watches_ite ?_ ?_))
  · exact watches_bind watches_take fun _ => watches_bind (h.flowPart _ _) fun _ =>
      watches_cons (h.flowValue _) (h.flowMapping _ _)
  · exact watches_bind watches_take fun _ => watches_pure _
  · exact watches_bind (h.node _) fun _ => watches_bind watches_peek fun _ =>
      watches_cons (watches_emptyNode _) (h.flowMapping _ _)

end Readers

/-- The readers call each other with a smaller budget, so all of them are watched at once. -/
theorem allWatch (budget : Nat) : AllWatch w budget := by
  induction budget with
  | zero =>
    constructor
    · exact fun _ => watches_fail
    · exact fun _ => watches_fail
    · exact watches_fail
    · exact fun _ => watches_fail
    · exact fun _ => watches_fail
    · exact fun _ _ => watches_fail
    · exact fun _ => watches_fail
    · exact fun _ _ => watches_fail
    · exact fun _ _ => watches_fail
  | succ budget ih =>
    exact ⟨watches_node ih, watches_blockSequence ih, watches_indentlessSequence ih,
      watches_mappingPart ih, watches_blockMapping ih, watches_flowPart ih, watches_flowValue ih,
      watches_flowSequence ih, watches_flowMapping ih⟩

/-! ## Documents -/

theorem watches_directives (budget : Nat) (hasVersion : Bool) (handles : Table Text) :
    Watches w (directives budget hasVersion handles) := by
  induction budget generalizing hasVersion handles with
  | zero => exact watches_fail
  | succ budget ih =>
    rw [directives]
    refine watches_bind watches_peek fun token => ?_
    split
    · exact watches_bind watches_take fun _ => watches_ite (watches_raise _) <|
        watches_ite (watches_raise _) (ih _ _)
    · exact watches_bind watches_take fun _ => watches_ite (watches_raise _) (ih _ _)
    · exact watches_bind watches_take fun _ => ih _ _
    · exact watches_pure _

theorem watches_skipDocumentEnds (budget : Nat) : Watches w (skipDocumentEnds budget) := by
  induction budget with
  | zero => exact watches_pure _
  | succ budget ih =>
    rw [skipDocumentEnds]
    exact watches_bind (watches_takeIf _) fun _ => watches_ite ih (watches_pure _)

theorem watches_documentStart (budget : Nat) : Watches w (documentStart budget) :=
  watches_bind (watches_skipDocumentEnds budget) fun _ => watches_bind watches_peek fun _ =>
    watches_ite (watches_pure _) <| watches_bind (watches_directives budget false []) fun _ =>
      watches_bind watches_peek fun _ => watches_ite (watches_raise _) <|
        watches_bind watches_take fun _ => watches_pure _

theorem watches_rootAndEnd (budget : Nat) {root : Composing NodeId} (h : Watches w root) :
    Watches w (rootAndEnd budget root) := by
  refine watches_bind h fun id => watches_bind (watches_takeIf _) fun _ =>
    watches_bind (watches_documentStart budget) fun next => ?_
  split
  · exact watches_pure _
  · exact watches_bind watches_get fun _ => watches_raise _

theorem watches_document (budget : Nat) : Watches w (document budget) := by
  have hnode : Watches w (node budget .block) := (allWatch budget).node .block
  refine watches_bind watches_take fun _ => watches_bind watches_peek fun first => watches_ite ?_ ?_
  · exact Keeps.map (watches_rootAndEnd budget hnode)
  · refine watches_bind (watches_documentStart budget) fun start => ?_
    split
    · exact watches_pure _
    · refine watches_bind (Keeps.modify (fun _ hs => hs) trivial) fun _ => ?_
      exact Keeps.map (watches_rootAndEnd budget <| watches_bind watches_peek fun _ =>
        watches_ite (watches_emptyNode _) hnode)

/-! ## What is watched -/

/-- What ended the tokens makes a report. -/
def Watch.reported : Watch where
  holds _ e := e.IsReported
  refused := Error.IsReported
  fault _ := trivial
  failure h := h
  rest h := h

/-- None of the tokens is the end of the text. -/
def Watch.endless : Watch where
  holds tokens _ := ∀ token ∈ tokens, token.kind ≠ .streamEnd
  refused _ := True
  fault _ := trivial
  failure _ := trivial
  rest h token ht := h token (List.mem_cons_of_mem _ ht)

/-- A step without the end of the text among the tokens gives something of a kind or is refused. -/
abbrev Endless (step : Composing α) (given : α → Prop) : Prop :=
  Keeps Watch.endless.refused (fun s => Watch.endless.holds s.tokens s.failure) step given

theorem endless_peek : Endless peek fun token => token.kind ≠ .streamEnd := by
  intro s hs
  rw [peek]
  split
  · next token rest ht => exact ⟨hs, hs token (ht ▸ List.mem_cons_self)⟩
  · exact trivial

/-- The end of the text is never found. -/
theorem endless_documentStart (budget : Nat) : Endless (documentStart budget) (· ≠ none) := by
  refine Keeps.bind (watches_skipDocumentEnds budget) fun _ _ =>
    Keeps.bind endless_peek fun token htoken => ?_
  rw [if_neg htoken]
  refine Keeps.bind (watches_directives budget false []) fun _ _ =>
    Keeps.bind watches_peek fun next _ => ?_
  split
  · exact fun _ _ => trivial
  · exact Keeps.bind watches_take fun _ _ => Keeps.pure (Option.some_ne_none _)

theorem endless_rootAndEnd (budget : Nat) {root : Composing NodeId}
    (h : Watches .endless root) : Endless (rootAndEnd budget root) fun _ => False := by
  refine Keeps.bind h fun id _ => Keeps.bind (watches_takeIf _) fun _ _ =>
    Keeps.bind (endless_documentStart budget) fun next hnext => ?_
  split
  · exact absurd rfl hnext
  · exact Keeps.bind Keeps.get fun _ _ _ _ => trivial

/-- Without the end of the text there is no document. -/
theorem endless_document (budget : Nat) : Endless (document budget) fun _ => False := by
  have hnode : Watches .endless (node budget .block) := (allWatch budget).node .block
  refine Keeps.bind watches_take fun _ _ => Keeps.bind watches_peek fun first _ => ?_
  split
  · exact Keeps.map (endless_rootAndEnd budget hnode)
  · refine Keeps.bind (endless_documentStart budget) fun start hstart => ?_
    split
    · exact absurd rfl hstart
    · next mark handles =>
      have hmodify : Watches .endless
          (modify fun s => { s with handles := handles } : Composing PUnit) :=
        Keeps.modify (fun _ hs => hs) trivial
      refine Keeps.bind hmodify fun _ _ => ?_
      exact Keeps.map (endless_rootAndEnd budget <| watches_bind watches_peek fun _ =>
        watches_ite (watches_emptyNode _) hnode)

end Composer

/-- Why a text has no graph. -/
theorem Graph.ofText_reported {schema : Tag.Schema} {text : Text} (h : Scannable text) {e : Error}
    (he : Graph.ofText schema text = .error e) : e.IsReported := by
  rw [Graph.ofText] at he
  split at he
  · cases he
  · next failure hfail =>
    obtain rfl := Except.error.inj he
    refine Ends.of_error (Composer.watches_document (w := .reported) _ _ ?_) hfail
    cases hs : (TokenStream.ofText text).failure with
    | none => trivial
    | some failure => exact TokenStream.failure_reported h hs

/-- A text whose tokens break off has no graph. -/
theorem Graph.ofText_endless (schema : Tag.Schema) {text : Text}
    (h : ∀ token ∈ (TokenStream.ofText text).tokens, token.kind ≠ .streamEnd) :
    ∃ e, Graph.ofText schema text = .error e := by
  rw [Graph.ofText]
  split
  · next hdoc =>
    exact (Ends.of_ok (Composer.endless_document _ ⟨_, _, _, _, _, _⟩ h) hdoc).2.elim
  · next e _ => exact ⟨e, rfl⟩

end ModernControls.Yaml
