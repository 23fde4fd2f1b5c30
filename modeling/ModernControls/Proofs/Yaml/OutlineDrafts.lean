import ModernControls.Proofs.Outcomes
import ModernControls.Proofs.Yaml.OutlineNodes
import ModernControls.Yaml.Tree.OfText

/-!
# The drafts of outlines

What an outline says, as the reduced schema has it. A node is made when it is met for the first
time; while the nodes of an outline are made, nothing changes but the progress of the nodes in its
range. Below a map everything is made at once, so nothing there is filled later.

A key is what it says by itself, which need not be a text. If a map has a key twice, nothing is
made.

Results:
- `meaning?_of_keyed`: if the keys of maps are texts, an outline says the same with them;
- `ofNode_comes`: the draft of an outline that is made at once is what it says, just if no map has a
  key twice.
-/
namespace ModernControls.Yaml

open Maker

variable {α β : Type}

/-- What a plain scalar says with the reduced schema, if it says anything. -/
def plainTree? (text : Text) : Option (Tree α) :=
  match Tag.ofScalar .reduced text with
  | .null => some .null
  | .bool => (Number.truth text).toOption.map .bool
  | .int => (Number.integer text).toOption.map .int
  | .float =>
    match Number.fraction text with
    | .ok .nan => if Number.isUnordered text then some (.float .nan) else none
    | .ok x => some (.float x)
    | .error _ => none
  | .str => some (.text text .plain)
  | _ => none

/-- How a text came to be that is not a plain scalar. -/
def ScalarStyle.form (style : ScalarStyle) : TextForm :=
  if style = .single ∨ style = .double then .quoted else .plain

/-- What a scalar says. -/
def scalarTree? (value : Text) (style : ScalarStyle) : Option (Tree α) :=
  if style = .plain then plainTree? value else some (.text value style.form)

theorem substitute_plain (put : α → Tree β) (text : Text) :
    (plainTree? text).map (Tree.substitute put) = plainTree? text := by
  rw [plainTree?, plainTree?]
  cases Tag.ofScalar .reduced text with
  | bool => cases Number.truth text <;> rfl
  | int => cases Number.integer text <;> rfl
  | float =>
    dsimp only
    cases Number.fraction text with
    | error e => rfl
    | ok x =>
      cases x with
      | nan => dsimp only; split <;> rfl
      | _ => rfl
  | _ => rfl

theorem substitute_scalar (put : α → Tree β) (value : Text) (style : ScalarStyle) :
    (scalarTree? value style).map (Tree.substitute put) = scalarTree? value style := by
  rw [scalarTree?, scalarTree?]
  split
  · exact substitute_plain put value
  · rfl

namespace LineEnd

/-- What a line end says. -/
def tree? : LineEnd → Option (Tree α)
  | nothing => some .null
  | word w => scalarTree? w.value w.style
  | formula _ => none
  | literal keeps lines => some (.text (Scalar.blockValue keeps lines) .plain)
  | brackets => some (.list [])
  | braces => some (.map [])

end LineEnd

namespace Word

/-- What a key says that is a text. -/
def keyTree (w : Word) : Tree α := .text w.value w.style.form

/-- What a key says. -/
def tree? (w : Word) : Option (Tree α) := scalarTree? w.value w.style

/-- Whether two keys are different. -/
def Differ (k l : Word) : Prop :=
  ∀ a b : Draft, k.tree? = some a → l.tree? = some b → Draft.sameKey a b = false

/-- Whether a key is a text. -/
def IsText (w : Word) : Prop := w.style = .plain → Tag.ofScalar .reduced w.value = .str

theorem tree?_eq_keyTree {w : Word} (h : w.IsText) :
    (w.tree? : Option (Tree α)) = some w.keyTree := by
  by_cases hp : w.style = .plain
  · rw [tree?, scalarTree?, if_pos hp, plainTree?, h hp, keyTree, hp]
    rfl
  · rw [tree?, scalarTree?, if_neg hp]
    rfl

theorem differ_of_isText {k l : Word} (hk : k.IsText) (hl : l.IsText) (h : k.value ≠ l.value) :
    k.Differ l := by
  intro a b ha hb
  rw [tree?_eq_keyTree hk] at ha
  rw [tree?_eq_keyTree hl] at hb
  obtain rfl := Option.some.inj ha
  obtain rfl := Option.some.inj hb
  exact decide_eq_false h

end Word

namespace Outline

mutual

/-- What an outline says. -/
def tree? : Outline → Option (Tree α)
  | leaf last => last.tree?
  | list items => (itemTrees? items).map .list
  | map entries => (entryTrees? entries).map .map

/-- What items say. -/
def itemTrees? : List Outline → Option (List (Tree α))
  | [] => some []
  | item :: rest => do
    let tree ← tree? item
    let trees ← itemTrees? rest
    return tree :: trees

/-- What entries say, if their keys are texts. -/
def entryTrees? : List (Word × Outline) → Option (List (Tree α × Tree α))
  | [] => some []
  | (key, value) :: rest => do
    let tree ← tree? value
    let trees ← entryTrees? rest
    return (key.keyTree, tree) :: trees

end

mutual

/-- Whether the keys of all maps are texts and differ from each other. -/
def Keyed : Outline → Prop
  | leaf _ => True
  | list items => KeyedItems items
  | map entries => (entries.map (·.1.value)).Nodup ∧ KeyedEntries entries

/-- Whether this is so in all items. -/
def KeyedItems : List Outline → Prop
  | [] => True
  | item :: rest => Keyed item ∧ KeyedItems rest

/-- Whether the keys of entries are texts, and this is so in all values. -/
def KeyedEntries : List (Word × Outline) → Prop
  | [] => True
  | (key, value) :: rest =>
    (key.style = .plain → Tag.ofScalar .reduced key.value = .str) ∧ Keyed value
      ∧ KeyedEntries rest

end

mutual

/-- What an outline says if a key is what it says by itself. -/
def meaning? : Outline → Option (Tree α)
  | leaf last => last.tree?
  | list items => (itemMeanings? items).map .list
  | map entries => (entryMeanings? entries).map .map

/-- What items say in that way. -/
def itemMeanings? : List Outline → Option (List (Tree α))
  | [] => some []
  | item :: rest => do
    let tree ← meaning? item
    let trees ← itemMeanings? rest
    return tree :: trees

/-- What entries say in that way. -/
def entryMeanings? : List (Word × Outline) → Option (List (Tree α × Tree α))
  | [] => some []
  | (key, value) :: rest => do
    let k ← key.tree?
    let tree ← meaning? value
    let trees ← entryMeanings? rest
    return (k, tree) :: trees

end

mutual

/-- Whether no map has a key twice. -/
def Distinct : Outline → Prop
  | leaf _ => True
  | list items => DistinctItems items
  | map entries => (entries.map (·.1)).Pairwise Word.Differ ∧ DistinctEntries entries

/-- Whether this is so in all items. -/
def DistinctItems : List Outline → Prop
  | [] => True
  | item :: rest => Distinct item ∧ DistinctItems rest

/-- Whether this is so in the values of all entries. -/
def DistinctEntries : List (Word × Outline) → Prop
  | [] => True
  | (_, value) :: rest => Distinct value ∧ DistinctEntries rest

end

mutual

/-- If the keys of all maps are texts, an outline says the same with them. -/
theorem meaning?_of_keyed : ∀ o : Outline, o.Keyed → (o.meaning? : Option (Tree α)) = o.tree?
  | leaf _, _ => rfl
  | list items, h => by rw [meaning?, tree?, itemMeanings?_of_keyed items h]
  | map entries, h => by rw [meaning?, tree?, entryMeanings?_of_keyed entries h.2]

theorem itemMeanings?_of_keyed : ∀ items : List Outline, KeyedItems items →
    (itemMeanings? items : Option (List (Tree α))) = itemTrees? items
  | [], _ => rfl
  | item :: rest, h => by
    rw [itemMeanings?, itemTrees?, meaning?_of_keyed item h.1, itemMeanings?_of_keyed rest h.2]

theorem entryMeanings?_of_keyed : ∀ entries : List (Word × Outline), KeyedEntries entries →
    (entryMeanings? entries : Option (List (Tree α × Tree α))) = entryTrees? entries
  | [], _ => rfl
  | (key, value) :: rest, h => by
    rw [entryMeanings?, entryTrees?, Word.tree?_eq_keyTree h.1, meaning?_of_keyed value h.2.1,
      entryMeanings?_of_keyed rest h.2.2]
    rfl

end

/-- Texts that differ are keys that differ. -/
theorem differ_of_keyed {entries : List (Word × Outline)} (hd : (entries.map (·.1.value)).Nodup)
    (hk : KeyedEntries entries) : (entries.map (·.1)).Pairwise Word.Differ := by
  have htext : ∀ {es : List (Word × Outline)}, KeyedEntries es → ∀ e ∈ es, e.1.IsText := by
    intro es
    induction es with
    | nil => exact fun _ _ he => nomatch he
    | cons e es ih =>
      rintro ⟨hkey, -, hrest⟩ e' he
      rcases List.mem_cons.1 he with rfl | he
      · exact hkey
      · exact ih hrest e' he
  rw [List.pairwise_map]
  rw [List.Nodup, List.pairwise_map] at hd
  exact hd.imp_of_mem fun ha hb hne =>
    Word.differ_of_isText (htext hk _ ha) (htext hk _ hb) hne

mutual

/-- If the keys of all maps are texts and differ, no map has a key twice. -/
theorem distinct_of_keyed : ∀ o : Outline, o.Keyed → o.Distinct
  | leaf _, _ => trivial
  | list items, h => distinctItems_of_keyed items h
  | map entries, h => ⟨differ_of_keyed h.1 h.2, distinctEntries_of_keyed entries h.2⟩

theorem distinctItems_of_keyed : ∀ items : List Outline, KeyedItems items → DistinctItems items
  | [], _ => trivial
  | item :: rest, h => ⟨distinct_of_keyed item h.1, distinctItems_of_keyed rest h.2⟩

theorem distinctEntries_of_keyed : ∀ entries : List (Word × Outline), KeyedEntries entries →
    DistinctEntries entries
  | [], _ => trivial
  | (_, value) :: rest, h => ⟨distinct_of_keyed value h.2.1, distinctEntries_of_keyed rest h.2.2⟩

end

end Outline

/-! ## Steps of making drafts -/

namespace Maker

variable {m m₁ m₂ : Maker} {x : Making α}

theorem bind_ok {a : α} (h : x m = .ok (a, m₁)) (f : α → Making β) : (x >>= f) m = f a m₁ := by
  simp [bind, StateT.bind, Except.bind, h]

theorem map_eq {y : Making α} (h : x m = y m₁) (f : α → β) : (f <$> x) m = (f <$> y) m₁ := by
  simp [Functor.map, StateT.map, h]

/-- Nothing has changed but how far the nodes of a range have come. -/
structure Touches (m m' : Maker) (id size : Nat) : Prop where
  schema : m'.schema = m.schema
  budget : m'.budget = m.budget
  graph : m'.graph = m.graph
  postponed : m'.postponed = m.postponed
  contents : m'.contents = m.contents
  progress : ∀ i : Nat, i < id ∨ id + size ≤ i → m'.progressOf i = m.progressOf i

/-- No node of a range has been met. -/
def Fresh (m : Maker) (id size : Nat) : Prop :=
  ∀ i : Nat, id ≤ i → i < id + size → m.progressOf i = .untouched

theorem Touches.refl (m : Maker) (id size : Nat) : Touches m m id size :=
  ⟨rfl, rfl, rfl, rfl, rfl, fun _ _ => rfl⟩

theorem Touches.trans {id size id₁ size₁ id₂ size₂ : Nat} (h : Touches m m₁ id₁ size₁)
    (h' : Touches m₁ m₂ id₂ size₂) (h1 : id ≤ id₁ ∧ id₁ + size₁ ≤ id + size)
    (h2 : id ≤ id₂ ∧ id₂ + size₂ ≤ id + size) : Touches m m₂ id size where
  schema := h'.schema.trans h.schema
  budget := h'.budget.trans h.budget
  graph := h'.graph.trans h.graph
  postponed := h'.postponed.trans h.postponed
  contents := h'.contents.trans h.contents
  progress i hi :=
    (h'.progress i (by omega)).trans (h.progress i (by omega))

theorem progressOf_start (schema : Tag.Schema) (g : Graph) (i : Nat) :
    (start schema g).progressOf i = .untouched := by
  by_cases hi : i < g.size <;> simp [progressOf, start, hi]

theorem setProgress_ok (id : Nat) (p : Progress) (m : Maker) :
    ∃ m', setProgress id p m = .ok ((), m') ∧ Touches m m' id 1 := by
  refine ⟨_, rfl, rfl, rfl, rfl, rfl, rfl, fun i hi => ?_⟩
  have hne : id ≠ i := by omega
  simp [progressOf, hne]

theorem Touches.weaken {id size id₁ size₁ : Nat} (h : Touches m m₁ id₁ size₁) (h1 : id ≤ id₁)
    (h2 : id₁ + size₁ ≤ id + size) : Touches m m₁ id size :=
  (Touches.refl m id size).trans h ⟨le_rfl, le_rfl⟩ ⟨h1, h2⟩

/-- What a step makes in a range: a value, just if something holds; otherwise it is refused. -/
abbrev Comes (m : Maker) (id size : Nat) (accepted : Prop) (step : Making α) (a : α) : Prop :=
  GivesIff accepted (step m) fun r => r.1 = a ∧ Touches m r.2 id size

section Comes

variable {id size id₁ size₁ id₂ size₂ : Nat} {p q : Prop} {a : α} {b : β}

theorem comes_ok (h : x m = .ok (a, m₁)) (ht : Touches m m₁ id size) : Comes m id size True x a :=
  .of_ok h ⟨rfl, ht⟩

/-- Steps one after the other, each in a part of a range. -/
theorem Comes.bind {f : α → Making β} (h : Comes m id₁ size₁ p x a)
    (hf : ∀ m₁, Touches m m₁ id₁ size₁ → Comes m₁ id₂ size₂ q (f a) b)
    (h1 : id ≤ id₁ ∧ id₁ + size₁ ≤ id + size) (h2 : id ≤ id₂ ∧ id₂ + size₂ ≤ id + size) :
    Comes m id size (p ∧ q) (x >>= f) b :=
  h.bindAt fun
    | (_, m₁), ⟨rfl, ht⟩ => (hf m₁ ht).mono fun _ ⟨hb, ht'⟩ => ⟨hb, ht.trans ht' h1 h2⟩

theorem Comes.map (f : α → β) (h : Comes m id size p x a) : Comes m id size p (f <$> x) (f a) := by
  have hpure : Comes m id size (p ∧ True) (x >>= fun a => Pure.pure (f a)) (f a) :=
    h.bind (fun m₁ _ => comes_ok rfl (.refl m₁ id size)) ⟨le_rfl, le_rfl⟩ ⟨le_rfl, le_rfl⟩
  exact hpure.congr (and_iff_left trivial)

/-- A node that has not been met comes to what is made for it. -/
theorem once_comes {make : Making Draft} {draft : Draft} (hid : m.progressOf id = .untouched)
    (h : ∀ m₁, Touches m m₁ id 1 → Comes m₁ (id + 1) size p make draft) :
    Comes m id (1 + size) p (once id make) draft := by
  obtain ⟨m₁, h₁, ht₁⟩ := setProgress_ok id .started m
  -- First the node is marked as begun, last as made; both concern the node alone.
  have hlast : ∀ m₂, Comes m₂ id 1 True (do
      setProgress id (.made draft)
      return draft) draft := fun m₂ => by
    obtain ⟨m₃, h₃, ht₃⟩ := setProgress_ok id (.made draft) m₂
    exact comes_ok (bind_ok h₃ _) ht₃
  have hrest : ∀ m₁, Touches m m₁ id 1 → Comes m₁ id (1 + size) (p ∧ True) (do
      let draft ← make
      setProgress id (.made draft)
      return draft) draft := fun m₁ ht =>
    (h m₁ ht).bind (fun m₂ _ => hlast m₂) (by omega) (by omega)
  have honce : once id make m = first id make m := by rw [once, hid]
  rw [Comes, honce]
  exact ((comes_ok h₁ ht₁).bind hrest (by omega) ⟨le_rfl, le_rfl⟩).congr (by simp)

end Comes

theorem mergeAt_ok {id : Nat} (h : ∀ e ∈ m.graph.entries id,
    (m.graph.node e.1).tag ≠ .merge ∧ (m.graph.node e.1).tag ≠ .value) :
    mergeAt id m = .ok ((), m) := by
  have hm := Graph.merge_of_ordinary m.budget m.graph id h
  show (do
    let graph ← orRaise (m.graph.merge m.budget id)
    set { m with graph := graph }) m = _
  rw [hm]
  rfl

end Maker

namespace Draft

open Outline

variable {m : Maker} {id : Nat}

theorem textAt_ok {value : Text} {style : ScalarStyle}
    (h : (m.graph.node id).content = .scalar value style) : textAt id m = .ok (value, m) := by
  show orRaise (m.graph.scalarText (m.graph.size + 1) id) m = _
  rw [Graph.scalarText_scalar m.graph m.graph.size id value style h]
  rfl

theorem get_ok (m : Maker) : (get : Making Maker) m = .ok (m, m) := rfl

theorem nodeAt_ok (m : Maker) (id : Nat) : nodeAt id m = .ok (m.graph.node id, m) := rfl

theorem orBreak_ok {x : Except Breakage α} {a : α} (h : x.toOption = some a) (m : Maker) :
    (orBreak x : Making α) m = .ok (a, m) := by
  cases x with
  | error e => cases h
  | ok b =>
    obtain rfl : b = a := by simpa [Except.toOption] using h
    rfl

theorem string_ok {value : Text} {style : ScalarStyle} (hs : m.schema = .reduced)
    (h : (m.graph.node id).content = .scalar value style) :
    string id m = .ok (.text value style.form, m) := by
  rw [string, bind_ok (textAt_ok h), bind_ok (get_ok m), bind_ok (nodeAt_ok m id)]
  simp only [hs, h]
  rfl

theorem fraction_ok {value : Text} {style : ScalarStyle} {tree : Draft}
    (h : (m.graph.node id).content = .scalar value style)
    (ht : (match Number.fraction value with
      | .ok .nan => if Number.isUnordered value then some (.float .nan) else none
      | .ok x => some (.float x)
      | .error _ => none) = some tree) :
    fraction id m = .ok (tree, m) := by
  rw [fraction, bind_ok (textAt_ok h)]
  cases hx : Number.fraction value with
  | error e => rw [hx] at ht; cases ht
  | ok x =>
    rw [hx] at ht
    rw [bind_ok (orBreak_ok rfl m)]
    cases x with
    | nan =>
      by_cases hu : Number.isUnordered value = true
      · simp only [hu, if_true, Option.some.injEq] at ht ⊢
        subst ht
        rfl
      · simp [hu] at ht
    | _ =>
      obtain rfl := Option.some.inj ht
      rfl

/-- What a scalar says is what is made of its node. -/
theorem scalar_ok {value : Text} {style : ScalarStyle} {tree : Draft} (hs : m.schema = .reduced)
    (h : Bears .reduced m.graph id (.scalar value style)) (ht : scalarTree? value style = some tree) :
    scalar id m = .ok (tree, m) := by
  obtain ⟨hc, htag⟩ := h
  have htext := textAt_ok hc
  rw [scalar, bind_ok (nodeAt_ok m id), htag]
  by_cases hp : style = .plain
  · rw [scalarTree?, if_pos hp, plainTree?] at ht
    simp only [NodeContent.ownTag, Composer.scalarTag, hp, decide_true, if_true]
    cases ho : Tag.ofScalar .reduced value with
    | null =>
      rw [ho] at ht
      obtain rfl := Option.some.inj ht
      simp only [bind_ok htext]
      rfl
    | bool =>
      simp only [ho, Option.map_eq_some_iff] at ht
      obtain ⟨b, hb, rfl⟩ := ht
      simp only [bind_ok htext, bind_ok (orBreak_ok hb m)]
      rfl
    | int =>
      simp only [ho, Option.map_eq_some_iff] at ht
      obtain ⟨n, hn, rfl⟩ := ht
      simp only [bind_ok htext, bind_ok (orBreak_ok hn m)]
      rfl
    | float =>
      rw [ho] at ht
      exact fraction_ok hc ht
    | str =>
      rw [ho] at ht
      obtain rfl := Option.some.inj ht
      simp only [string_ok hs hc, hp]
      rfl
    | _ => rw [ho] at ht; cases ht
  · rw [scalarTree?, if_neg hp] at ht
    obtain rfl := Option.some.inj ht
    simp only [NodeContent.ownTag, Composer.scalarTag, hp, decide_false, Bool.false_eq_true, if_false]
    exact string_ok hs hc

/-- The tag of a scalar that says something is that of no collection. -/
theorem ownTag_scalar {value : Text} {style : ScalarStyle} {tree : Tree α}
    (ht : scalarTree? value style = some tree) {tag : Tag}
    (h : (NodeContent.scalar value style).ownTag .reduced = tag) :
    tag = .null ∨ tag = .bool ∨ tag = .int ∨ tag = .float ∨ tag = .str := by
  subst h
  simp only [NodeContent.ownTag, Composer.scalarTag]
  by_cases hp : style = .plain
  · rw [scalarTree?, if_pos hp, plainTree?] at ht
    simp only [hp, decide_true, if_true]
    cases ho : Tag.ofScalar .reduced value with
    | null | bool | int | float | str => simp
    | _ => rw [ho] at ht; cases ht
  · simp [hp]

/-- The draft of a node, known from what is built when it is met. -/
theorem node_comes {budget size : Nat} {atOnce : Bool} {draft : Draft} {p : Prop}
    (hid : m.progressOf id = .untouched)
    (h : ∀ m₁, Touches m m₁ id 1 →
      Comes m₁ (id + 1) size p (build (ofNode budget) atOnce id) draft) :
    Comes m id (1 + size) p (ofNode (budget + 1) atOnce id) draft := by
  rw [ofNode]
  exact once_comes hid h

theorem build_scalar {make : Bool → NodeId → Making Draft} {value : Text} {style : ScalarStyle}
    {tree : Draft} (hs : m.schema = .reduced)
    (h : Bears .reduced m.graph id (.scalar value style))
    (ht : scalarTree? value style = some tree) : build make true id m = .ok (tree, m) := by
  have htag := ownTag_scalar ht h.2.symm
  have hscalar := scalar_ok hs h ht
  rw [build, bind_ok (nodeAt_ok m id)]
  show (if mayWait m.schema (m.graph.node id).tag = true then _ else _ : Making Draft) m = _
  rcases htag with h' | h' | h' | h' | h' <;> rw [h'] <;> simpa [mayWait] using hscalar

/-- The content of a list is that of its items. -/
theorem content_sequence {make : NodeId → Making Draft} {ids : List NodeId}
    (h : Bears .reduced m.graph id (.sequence ids)) :
    content make id m = (Tree.list <$> ids.mapM make) m := by
  have htag : (m.graph.node id).tag = .seq := h.2
  rw [content, bind_ok (nodeAt_ok m id), htag]
  show items make (m.graph.node id) m = _
  rw [items, h.1]
  rfl

theorem build_sequence {make : Bool → NodeId → Making Draft} {ids : List NodeId}
    (h : Bears .reduced m.graph id (.sequence ids)) :
    build make true id m = (Tree.list <$> ids.mapM (make true)) m := by
  have htag : (m.graph.node id).tag = .seq := h.2
  rw [← content_sequence h, build, bind_ok (nodeAt_ok m id)]
  show (if mayWait m.schema (m.graph.node id).tag = true then _ else _ : Making Draft) m = _
  rw [htag, if_pos (by rfl), if_pos rfl]

theorem build_mapping {make : Bool → NodeId → Making Draft} {entries : List NodeEntry}
    {atOnce : Bool} (hs : m.schema = .reduced) (h : Bears .reduced m.graph id (.mapping entries))
    (hkeys : ∀ e ∈ entries, (m.graph.node e.1).tag ≠ .merge ∧ (m.graph.node e.1).tag ≠ .value) :
    build make atOnce id m
      = (Tree.map <$> entries.foldlM (addNewEntry (make true) (m.graph.node id).mark) []) m := by
  have htag : (m.graph.node id).tag = .map := h.2
  have hentries : m.graph.entries id = entries := by rw [Graph.entries, h.1]; rfl
  rw [build, bind_ok (nodeAt_ok m id)]
  show (if mayWait m.schema (m.graph.node id).tag = true then _ else _ : Making Draft) m = _
  rw [htag, hs, if_neg (by simp [mayWait]), if_pos rfl, strictMap, bind_ok (nodeAt_ok m id), h.1]
  show (Tree.map <$> entriesBy (addNewEntry (make true)) id) m = _
  have hby : entriesBy (addNewEntry (make true)) id m
      = entries.foldlM (addNewEntry (make true) (m.graph.node id).mark) [] m := by
    rw [entriesBy, bind_ok (mergeAt_ok (hentries ▸ hkeys)), bind_ok (nodeAt_ok m id), h.1]
    rfl
  exact map_eq hby _

/-! ## The drafts of outlines -/

/-- A step makes what an outline says wherever it is, just if no map in it has a key twice. -/
def Makes (make : NodeId → Making Draft) (o : Outline) : Prop :=
  ∀ ⦃tree : Draft⦄ ⦃id : Nat⦄ ⦃m : Maker⦄, o.meaning? = some tree → m.schema = .reduced →
    Holds .reduced m.graph id o → Fresh m id o.size → Comes m id o.size o.Distinct (make id) tree

/-- A step makes what items say wherever they are. -/
def MakesItems (make : NodeId → Making Draft) (items : List Outline) : Prop :=
  ∀ ⦃trees : List Draft⦄ ⦃id : Nat⦄ ⦃m : Maker⦄, itemMeanings? items = some trees →
    m.schema = .reduced → HoldsItems .reduced m.graph id items → Fresh m id (sizeItems items) →
      Comes m id (sizeItems items) (DistinctItems items) ((itemIds id items).mapM make) trees

/-- Whether the keys of entries are new and differ from each other. -/
def AreNew (done : List (Draft × Draft)) (entries : List (Word × Outline)) : Prop :=
  (∀ e ∈ entries, ∀ k : Draft, e.1.tree? = some k → hasKey done k = false)
    ∧ (entries.map (·.1)).Pairwise Word.Differ

/-- A step makes what entries say wherever they are, just if their keys are new. -/
def MakesEntries (make : NodeId → Making Draft) (entries : List (Word × Outline)) : Prop :=
  ∀ ⦃trees : List (Draft × Draft)⦄ ⦃id : Nat⦄ ⦃m : Maker⦄ (since : Mark)
    (done : List (Draft × Draft)), entryMeanings? entries = some trees → m.schema = .reduced →
      HoldsEntries .reduced m.graph id entries → Fresh m id (sizeEntries entries) →
        Comes m id (sizeEntries entries) (DistinctEntries entries ∧ AreNew done entries)
          ((entryIds id entries).foldlM (addNewEntry make since) done) (done ++ trees)

/-- The nodes of a part have not been met if nothing outside of it has changed. -/
theorem fresh_of_touches {m₁ : Maker} {id size id₁ size₁ id₂ size₂ : Nat} (hf : Fresh m id size)
    (ht : Touches m m₁ id₁ size₁) (h : id₁ + size₁ ≤ id₂)
    (h2 : id ≤ id₂ ∧ id₂ + size₂ ≤ id + size) :
    Fresh m₁ id₂ size₂ := fun i hi hlt => by
  rw [ht.progress i (by omega)]
  exact hf i (by omega) (by omega)

/-- The node of a scalar. -/
theorem ofNode_scalar (budget : Nat) {value : Text} {style : ScalarStyle} {tree : Draft}
    (hs : m.schema = .reduced) (h : Bears .reduced m.graph id (.scalar value style))
    (ht : scalarTree? value style = some tree) (hid : m.progressOf id = .untouched) :
    Comes m id 1 True (ofNode (budget + 1) true id) tree := by
  have hbuilt : ∀ m₁, Touches m m₁ id 1 →
      Comes m₁ (id + 1) 0 True (build (ofNode budget) true id) tree := fun m₁ h₁ =>
    comes_ok (build_scalar (h₁.schema.trans hs) (h₁.graph ▸ h) ht) (.refl m₁ (id + 1) 0)
  exact node_comes hid hbuilt

theorem leaf_makes (last : LineEnd) (budget : Nat) :
    Makes (ofNode (budget + 1) true) (.leaf last) := by
  intro tree id m ht hs hh hf
  have hid := hf id (Nat.le_refl _) (Nat.lt_succ_self _)
  cases last with
  | nothing => exact ofNode_scalar budget hs hh ht hid
  | word w => exact ofNode_scalar budget hs hh ht hid
  | formula e => cases ht
  | literal keeps lines => exact ofNode_scalar budget hs hh ht hid
  | brackets =>
    obtain rfl := Option.some.inj ht
    exact node_comes hid fun m₁ h₁ =>
      comes_ok (build_sequence (h₁.graph ▸ hh)) (.refl m₁ (id + 1) 0)
  | braces =>
    obtain rfl := Option.some.inj ht
    exact node_comes hid fun m₁ h₁ =>
      comes_ok (build_mapping (h₁.schema.trans hs) (h₁.graph ▸ hh) (by simp)) (.refl m₁ (id + 1) 0)

theorem list_makes {items : List Outline} {budget : Nat}
    (h : MakesItems (ofNode budget true) items) :
    Makes (ofNode (budget + 1) true) (.list items) := by
  intro tree id m ht hs hh hf
  obtain ⟨trees, htrees, rfl⟩ := Option.map_eq_some_iff.1 ht
  refine node_comes (hf id (Nat.le_refl _) (by simp only [size]; omega)) fun m₁ h₁ => ?_
  rw [Comes, build_sequence (h₁.graph ▸ hh.1)]
  exact (h htrees (h₁.schema.trans hs) (h₁.graph ▸ hh.2)
    (fresh_of_touches hf h₁ le_rfl (by simp only [size]; omega))).map _

/-- A key that says something is no merge key and no value key. -/
theorem tag_of_key {g : Graph} : ∀ {entries : List (Word × Outline)} {id : Nat}
    {trees : List (Draft × Draft)}, entryMeanings? entries = some trees →
      HoldsEntries .reduced g id entries → ∀ e ∈ entryIds id entries,
        (g.node e.1).tag ≠ .merge ∧ (g.node e.1).tag ≠ .value
  | [], _, _, _, _, _, he => nomatch he
  | (key, value) :: rest, id, trees, ht, hh, e, he => by
    simp only [entryMeanings?, Option.bind_eq_bind, Option.bind_eq_some_iff] at ht
    obtain ⟨k, hk, _, -, _, hrest, -⟩ := ht
    rcases List.mem_cons.1 he with rfl | he
    · rw [hh.1.2]
      rcases ownTag_scalar hk rfl with h | h | h | h | h <;> rw [h] <;> decide
    · exact tag_of_key hrest hh.2.2 e he

theorem map_makes {entries : List (Word × Outline)} {budget : Nat} (atOnce : Bool)
    (h : MakesEntries (ofNode budget true) entries) :
    Makes (ofNode (budget + 1) atOnce) (.map entries) := by
  intro tree id m ht hs hh hf
  obtain ⟨trees, htrees, rfl⟩ := Option.map_eq_some_iff.1 ht
  refine node_comes (hf id (Nat.le_refl _) (by simp only [size]; omega)) fun m₁ h₁ => ?_
  rw [← h₁.graph] at hh
  rw [Comes, build_mapping (h₁.schema.trans hs) hh.1 (tag_of_key htrees hh.2)]
  refine ((h (m₁.graph.node id).mark [] htrees (h₁.schema.trans hs) hh.2
    (fresh_of_touches hf h₁ le_rfl (by simp only [size]; omega))).map _).congr ?_
  rw [Distinct, AreNew, and_comm]
  exact and_congr_left fun _ => and_iff_right fun _ _ _ _ => rfl

theorem item_makes {item : Outline} {items : List Outline} {make : NodeId → Making Draft}
    (h : Makes make item) (hrest : MakesItems make items) : MakesItems make (item :: items) := by
  intro trees id m ht hs hh hf
  simp only [itemMeanings?, Option.bind_eq_bind, Option.bind_eq_some_iff, Option.pure_def,
    Option.some.injEq] at ht
  obtain ⟨tree, htree, trees, htrees, rfl⟩ := ht
  simp only [sizeItems] at hf ⊢
  have hothers : ∀ m₁, Touches m m₁ id item.size → Comes m₁ (id + item.size) (sizeItems items)
      (DistinctItems items) (do
        let trees ← (itemIds (id + item.size) items).mapM make
        return tree :: trees) (tree :: trees) := fun m₁ ht₁ =>
    (hrest htrees (ht₁.schema.trans hs) (ht₁.graph ▸ hh.2)
      (fresh_of_touches hf ht₁ le_rfl (by omega))).map (tree :: ·)
  rw [itemIds, List.mapM_cons]
  exact (h htree hs hh.1 fun i hi hlt => hf i hi (by omega)).bind hothers (by omega) (by omega)

theorem hasKey_append (done : List (Draft × Draft)) (k l v : Draft) :
    hasKey (done ++ [(k, v)]) l = (hasKey done l || sameKey k l) := by
  simp [hasKey]

/-- What a scalar says can be a key. -/
theorem isKey_of_scalarTree? {value : Text} {style : ScalarStyle} {k : Draft}
    (h : scalarTree? value style = some k) : k.isKey = true := by
  rw [scalarTree?] at h
  split at h
  · rw [plainTree?] at h
    split at h
    · exact Option.some.inj h ▸ rfl
    · obtain ⟨b, -, rfl⟩ := Option.map_eq_some_iff.1 h
      rfl
    · obtain ⟨n, -, rfl⟩ := Option.map_eq_some_iff.1 h
      rfl
    · split at h
      · split at h
        · exact Option.some.inj h ▸ rfl
        · cases h
      · exact Option.some.inj h ▸ rfl
      · cases h
    · exact Option.some.inj h ▸ rfl
    · cases h
  · exact Option.some.inj h ▸ rfl

/-- A new key is added with its value; one that is there already is refused. -/
theorem addNewEntry_comes {key : Word} {value : Outline} {budget : Nat} {k tree : Draft}
    (since : Mark) (done : List (Draft × Draft)) (hv : Makes (ofNode (budget + 1) true) value)
    (hk : key.tree? = some k) (ht : value.meaning? = some tree) (hs : m.schema = .reduced)
    (hh : Bears .reduced m.graph id (.scalar key.value key.style)
      ∧ Holds .reduced m.graph (id + 1) value) (hf : Fresh m id (1 + value.size)) :
    Comes m id (1 + value.size) (value.Distinct ∧ hasKey done k = false)
      (addNewEntry (ofNode (budget + 1) true) since done (id, id + 1)) (done ++ [(k, tree)]) := by
  have hnode := ofNode_scalar budget hs hh.1 hk (hf id (Nat.le_refl _) (by omega))
  have hkey : Comes m id 1 (True ∧ True) (Draft.key (ofNode (budget + 1) true) since id) k := by
    refine hnode.bind (fun m₁ _ => ?_) ⟨le_rfl, le_rfl⟩ ⟨le_rfl, le_rfl⟩
    rw [if_pos (isKey_of_scalarTree? hk)]
    exact comes_ok rfl (.refl m₁ id 1)
  refine (hkey.bind (fun m₁ ht₁ => ?_) (by omega) ⟨le_rfl, le_rfl⟩).congr
    (and_iff_right ⟨trivial, trivial⟩)
  by_cases hnew : hasKey done k = true
  · rw [if_pos hnew]
    have hrefused : ∃ e, (repeated since k id : Making (List (Draft × Draft))) m₁ = .error e := by
      by_cases hlong : k.isLong = true
      · exact ⟨_, by rw [repeated, if_pos hlong]; rfl⟩
      · exact ⟨_, by rw [repeated, if_neg hlong]; rfl⟩
    obtain ⟨e, he⟩ := hrefused
    exact .of_error (by simp [hnew]) he
  · rw [if_neg hnew]
    have hvalue := hv ht (ht₁.schema.trans hs) (ht₁.graph ▸ hh.2) (fresh_of_touches hf ht₁ le_rfl
      (by omega))
    have hadd := hvalue.map fun v => done ++ [(k, v)]
    exact (hadd.mono fun r hr => ⟨hr.1, hr.2.weaken (by omega) (by omega)⟩).congr (by simp [hnew])

theorem areNew_cons {done : List (Draft × Draft)} {key : Word} {value : Outline} {k tree : Draft}
    {rest : List (Word × Outline)} (hk : key.tree? = some k) :
    AreNew done ((key, value) :: rest)
      ↔ hasKey done k = false ∧ AreNew (done ++ [(k, tree)]) rest := by
  have hothers : ∀ e ∈ rest,
      (∀ l : Draft, e.1.tree? = some l → hasKey (done ++ [(k, tree)]) l = false)
      ↔ (∀ l : Draft, e.1.tree? = some l → hasKey done l = false) ∧ key.Differ e.1 := by
    intro e _
    simp only [hasKey_append, Bool.or_eq_false_iff, Word.Differ, hk, Option.some.injEq]
    exact ⟨fun h => ⟨fun l hl => (h l hl).1, fun a b ha hb => ha ▸ (h b hb).2⟩,
      fun h l hl => ⟨h.1 l hl, h.2 k l rfl hl⟩⟩
  rw [AreNew, AreNew, forall₂_congr hothers]
  simp only [List.forall_mem_cons, List.map_cons, List.pairwise_cons, List.forall_mem_map, hk,
    Option.some.injEq, forall_eq', forall_and, and_assoc]

theorem entry_makes {key : Word} {value : Outline} {entries : List (Word × Outline)} {budget : Nat}
    (hv : Makes (ofNode (budget + 1) true) value)
    (hrest : MakesEntries (ofNode (budget + 1) true) entries) :
    MakesEntries (ofNode (budget + 1) true) ((key, value) :: entries) := by
  intro trees id m since done ht hs hh hf
  simp only [entryMeanings?, Option.bind_eq_bind, Option.bind_eq_some_iff, Option.pure_def,
    Option.some.injEq] at ht
  obtain ⟨k, hk, tree, htree, trees, htrees, rfl⟩ := ht
  simp only [sizeEntries] at hf ⊢
  rw [entryIds, List.foldlM_cons]
  have hfirst := addNewEntry_comes since done hv hk htree hs ⟨hh.1, hh.2.1⟩
    fun i hi hlt => hf i hi (by omega)
  have hothers : ∀ m₁, Touches m m₁ id (1 + value.size) →
      Comes m₁ (id + (1 + value.size)) (sizeEntries entries)
        (DistinctEntries entries ∧ AreNew (done ++ [(k, tree)]) entries)
        ((entryIds (id + (1 + value.size)) entries).foldlM
          (addNewEntry (ofNode (budget + 1) true) since) (done ++ [(k, tree)]))
        (done ++ [(k, tree)] ++ trees) := fun m₁ ht₁ =>
    hrest since (done ++ [(k, tree)]) htrees (ht₁.schema.trans hs) (ht₁.graph ▸ hh.2.2)
      (fresh_of_touches hf ht₁ le_rfl (by omega))
  have hall : Comes m id (1 + value.size + sizeEntries entries) _ _ _ :=
    hfirst.bind (f := fun d => (entryIds (id + (1 + value.size)) entries).foldlM
      (addNewEntry (ofNode (budget + 1) true) since) d) hothers ⟨le_rfl, by omega⟩
      ⟨by omega, by omega⟩
  rw [List.append_assoc] at hall
  refine hall.congr ?_
  rw [areNew_cons hk, DistinctEntries, and_and_and_comm]

mutual

theorem ofNode_comes : ∀ (o : Outline) (budget : Nat), o.size ≤ budget →
    Makes (ofNode budget true) o
  | .leaf last, 0, hb => absurd hb (by simp [size])
  | .leaf last, budget + 1, _ => leaf_makes last budget
  | .list items, 0, hb => absurd hb (by simp only [size]; omega)
  | .list items, budget + 1, hb =>
    list_makes (items_make items budget (by simp only [size] at hb; omega))
  | .map entries, 0, hb => absurd hb (by simp only [size]; omega)
  | .map entries, budget + 1, hb =>
    map_makes true (entries_make entries budget (by simp only [size] at hb; omega))

theorem items_make : ∀ (items : List Outline) (budget : Nat), sizeItems items ≤ budget →
    MakesItems (ofNode budget true) items
  | [], _, _ => fun trees id m ht _ _ _ => by
    obtain rfl := Option.some.inj ht
    exact comes_ok rfl (.refl m id 0)
  | item :: items, budget, hb => by
    simp only [sizeItems] at hb
    exact item_makes (ofNode_comes item budget (by omega)) (items_make items budget (by omega))

theorem entries_make : ∀ (entries : List (Word × Outline)) (budget : Nat),
    sizeEntries entries ≤ budget → MakesEntries (ofNode budget true) entries
  | [], _, _ => fun trees id m since done ht _ _ _ => by
    obtain rfl := Option.some.inj ht
    rw [List.append_nil]
    exact (comes_ok rfl (.refl m id 0)).congr (by simp [DistinctEntries, AreNew])
  | (key, value) :: entries, 0, hb => absurd hb (by simp only [sizeEntries]; omega)
  | (key, value) :: entries, budget + 1, hb => by
    simp only [sizeEntries] at hb
    exact entry_makes (ofNode_comes value (budget + 1) (by omega))
      (entries_make entries (budget + 1) (by omega))

end

end Draft

end ModernControls.Yaml
