import ModernControls.Proofs.Yaml.OutlineDrafts

/-!
# The trees of outlines

A text is read as a tree: the drafts of its outline with what was filled later put in. The root is
a list of maps, which waits until all else is made, or a map, which is made at once.

Results:
- `ofRoot_list`: what the root comes to that is a list of maps;
- `substitute_meaning`: nothing is pending in what an outline says;
- `ofText_list`, `ofText_map`: a text of an outline is read as what the outline says, just if no map
  has a key twice;
- `ofText_write_list`, `ofText_write_map`: so a text whose keys are texts is read as its tree;
- `ofText_word`: a quoted word by itself is read as its text.
-/
namespace ModernControls.Yaml

open Maker

variable {α β : Type}

namespace Draft

open Outline

variable {m : Maker} {id : Nat}

/-- The items of a list of maps are made without waiting. -/
theorem maps_make : ∀ (items : List Outline) (budget : Nat), sizeItems items ≤ budget →
    (∀ item ∈ items, ∃ entries, item = .map entries) → MakesItems (ofNode budget false) items
  | [], budget, hb, _ => fun trees id m ht _ _ _ => by
    obtain rfl := Option.some.inj ht
    exact comes_ok rfl (.refl m id 0)
  | item :: items, budget, hb, hmaps => by
    simp only [sizeItems] at hb
    refine item_makes ?_ (maps_make items budget (by omega) fun i hi =>
      hmaps i (List.mem_cons_of_mem _ hi))
    obtain ⟨entries, rfl⟩ := hmaps item List.mem_cons_self
    obtain ⟨budget, rfl⟩ : ∃ b, budget = b + 1 := ⟨budget - 1, by
      have := size_pos (.map entries)
      omega⟩
    exact map_makes false (entries_make entries budget (by simp only [size] at hb; omega))

/-- When no collection waits any more, the filling is over. -/
theorem fillFrom_end {depth budget place : Nat} (h : m.postponed[place]? = none) :
    fillFrom depth (budget + 1) place m = .ok ((), m) := by
  rw [fillFrom, bind_ok (get_ok m)]
  simp only [h]
  rfl

/-- When one collection waits, only it is filled. -/
theorem fillFrom_one {depth : Nat} (budget : Nat) {draft : Draft} {p : Prop} (good : Maker → Prop)
    (hp : m.postponed = #[id])
    (h : GivesIff p (content (ofNode depth false) id m) fun r =>
      r.1 = draft ∧ r.2.postponed = m.postponed ∧ good r.2) :
    GivesIff p (fillFrom depth (budget + 2) 0 m) fun r => ∃ m' : Maker, good m'
      ∧ r.2 = { m' with contents := m'.contents.setIfInBounds id draft } := by
  have hfirst : m.postponed[0]? = some id := by rw [hp]; rfl
  rw [fillFrom, bind_ok (get_ok m)]
  simp only [hfirst]
  refine (h.bindAt (q := True) ?_).congr (and_iff_left trivial)
  rintro ⟨_, m'⟩ ⟨rfl, hpost, hgood⟩
  have hwaiting : m'.postponed[1]? = none := by
    rw [hpost, hp]
    rfl
  exact .of_ok (fillFrom_end hwaiting) ⟨m', hgood, rfl⟩

/-- A list that has not been met waits, and nothing else has changed but how far it has come. -/
theorem ofNode_waiting (budget : Nat) (hid : m.progressOf id = .untouched)
    (htag : (m.graph.node id).tag = .seq) :
    ∃ m', ofNode (budget + 1) false id m = .ok (.foreign (.collection id), m')
      ∧ Touches { m with postponed := m.postponed.push id } m' id 1 := by
  obtain ⟨m₁, h₁, ht₁⟩ := setProgress_ok id .started m
  have htag₁ : (m₁.graph.node id).tag = .seq := ht₁.graph ▸ htag
  have hbuild : build (ofNode budget) false id m₁
      = .ok (.foreign (.collection id), { m₁ with postponed := m₁.postponed.push id }) := by
    rw [build, bind_ok (nodeAt_ok m₁ id)]
    show (if mayWait m₁.schema (m₁.graph.node id).tag = true then _ else _ : Making Draft) m₁ = _
    rw [htag₁]
    rfl
  have hpushed : Touches { m with postponed := m.postponed.push id }
      { m₁ with postponed := m₁.postponed.push id } id 1 :=
    { ht₁ with postponed := congrArg (·.push id) ht₁.postponed }
  obtain ⟨m₂, h₂, ht₂⟩ := setProgress_ok id (.made (.foreign (.collection id)))
    { m₁ with postponed := m₁.postponed.push id }
  refine ⟨m₂, ?_, hpushed.trans ht₂ ⟨le_rfl, le_rfl⟩ ⟨le_rfl, le_rfl⟩⟩
  rw [ofNode, once, hid]
  show first id (build (ofNode budget) false id) m = _
  rw [first, bind_ok h₁, bind_ok hbuild, bind_ok h₂]
  rfl

/-- A list of maps waits, and is filled with all of them. -/
theorem ofRoot_list {g : Graph} {items : List Outline} {trees : List Draft}
    (hh : Holds .reduced g 0 (.list items)) (hsize : g.size = (Outline.list items).size)
    (ht : itemMeanings? items = some trees)
    (hmaps : ∀ item ∈ items, ∃ entries, item = .map entries) :
    GivesIff (DistinctItems items) (ofRoot 0 (.start .reduced g)) fun r =>
      r.1 = .foreign (.collection 0) ∧ r.2.contentOf 0 = .list trees := by
  have hpos : 0 < g.size := hsize ▸ size_pos (.list items)
  have hfresh := progressOf_start .reduced g
  obtain ⟨m, hm, htouched⟩ := ofNode_waiting g.size (hfresh 0) hh.1.2
  have hgraph : m.graph = g := htouched.graph
  have hcontents : m.contents.size = g.size := by
    rw [htouched.contents]
    simp [Maker.start]
  -- Only the root has been met, so the maps are made for the first time.
  have hunmet : Fresh m 1 (sizeItems items) := fun i hi _ =>
    (htouched.progress i (by omega)).trans (hfresh i)
  have hitems := maps_make items (g.size + 1) (by rw [hsize, size]; omega) hmaps ht
    htouched.schema (hgraph ▸ hh.2) hunmet
  have hmade : GivesIff (DistinctItems items) (content (ofNode (g.size + 1) false) 0 m) fun r =>
      r.1 = .list trees ∧ r.2.postponed = m.postponed ∧ r.2.contents.size = g.size := by
    rw [content_sequence (hgraph ▸ hh.1)]
    exact (hitems.map Tree.list).mono fun r hr =>
      ⟨hr.1, hr.2.postponed, hr.2.contents ▸ hcontents⟩
  obtain ⟨budget, hbudget⟩ : ∃ b, g.size + 1 = b + 2 := ⟨g.size - 1, by omega⟩
  have hfill := fillFrom_one budget (·.contents.size = g.size) htouched.postponed hmade
  rw [← hbudget] at hfill
  have hroot : ofRoot 0 (.start .reduced g) = (do
      fillFrom (g.size + 1) (g.size + 1) 0
      return .foreign (.collection 0) : Making Draft) m := by
    show (do
      let draft ← ofNode (g.size + 1) false 0
      fillFrom (g.size + 1) (g.size + 1) 0
      return draft : Making Draft) (.start .reduced g) = _
    rw [bind_ok hm]
  rw [hroot]
  refine (hfill.bindAt (q := True) ?_).congr (and_iff_left trivial)
  rintro ⟨⟨⟩, m'⟩ ⟨m₃, hm₃, rfl⟩
  refine .of_ok rfl ⟨rfl, ?_⟩
  simp [Maker.contentOf, hm₃, hpos]

/-- A node with the tag of a text is built as one. -/
theorem build_string {make : Bool → NodeId → Making Draft} {atOnce : Bool}
    (htag : (m.graph.node id).tag = .str) : build make atOnce id m = string id m := by
  rw [build, bind_ok (nodeAt_ok m id)]
  show (if mayWait m.schema (m.graph.node id).tag = true then _ else _ : Making Draft) m = _
  rw [htag]
  show scalar id m = _
  rw [scalar, bind_ok (nodeAt_ok m id), htag]

/-- The text of a scalar; how it came to be is not known in the full schema. -/
theorem exists_string (schema : Tag.Schema) (value : Text) (style : ScalarStyle) :
    ∃ form, ∀ (m : Maker) (id : NodeId), m.schema = schema →
      (m.graph.node id).content = .scalar value style →
        string id m = .ok (.text value form, m) := by
  cases schema with
  | reduced => exact ⟨style.form, fun m id => string_ok⟩
  | full =>
    refine ⟨.plain, fun m id hs hc => ?_⟩
    rw [string, bind_ok (textAt_ok hc), bind_ok (get_ok m), bind_ok (nodeAt_ok m id)]
    simp only [hs]
    rfl

end Draft

namespace Outline

mutual

/-- Nothing is pending in what an outline says. -/
theorem substitute_meaning (put : α → Tree β) : ∀ o : Outline,
    o.meaning?.map (Tree.substitute put) = o.meaning?
  | leaf last => by
    cases last with
    | word w => exact substitute_scalar put w.value w.style
    | _ => rfl
  | list items => by
    rw [meaning?, meaning?, ← substitute_itemMeanings put items, Option.map_map, Option.map_map]
    rfl
  | map entries => by
    rw [meaning?, meaning?, ← substitute_entryMeanings put entries, Option.map_map, Option.map_map]
    rfl

theorem substitute_itemMeanings (put : α → Tree β) : ∀ items : List Outline,
    (itemMeanings? items).map (Tree.substituteItems put) = itemMeanings? items
  | [] => rfl
  | item :: rest => by
    rw [itemMeanings?, itemMeanings?, ← substitute_meaning put item,
      ← substitute_itemMeanings put rest]
    cases (item.meaning? : Option (Tree α))
      <;> cases (itemMeanings? rest : Option (List (Tree α))) <;> rfl

theorem substitute_entryMeanings (put : α → Tree β) : ∀ entries : List (Word × Outline),
    (entryMeanings? entries).map (Tree.substituteEntries put) = entryMeanings? entries
  | [] => rfl
  | (key, value) :: rest => by
    have hkey : (key.tree?).map (Tree.substitute put) = key.tree? :=
      substitute_scalar put key.value key.style
    rw [entryMeanings?, entryMeanings?, ← hkey, ← substitute_meaning put value,
      ← substitute_entryMeanings put rest]
    cases (key.tree? : Option (Tree α)) <;> cases (value.meaning? : Option (Tree α))
      <;> cases (entryMeanings? rest : Option (List (Tree α × Tree α))) <;> rfl

end

/-- What an outline says is not pending, so it is there as a draft. -/
theorem exists_draft {o : Outline} {tree : Tree α} (ht : o.meaning? = some tree) :
    ∃ draft : Draft, o.meaning? = some draft
      ∧ ∀ put : Pending → Tree α, draft.substitute put = tree := by
  have hsub : ∀ put : Pending → Tree α,
      (o.meaning? : Option Draft).map (Tree.substitute put) = some tree := fun put =>
    (substitute_meaning put o).trans ht
  obtain ⟨draft, hdraft, -⟩ := Option.map_eq_some_iff.1 (hsub fun _ => tree)
  refine ⟨draft, hdraft, fun put => ?_⟩
  have := hsub put
  rw [hdraft] at this
  exact Option.some.inj this

/-- The tree of a text is that of its root. -/
theorem ofText_of_root {schema : Tag.Schema} {text : Text} {g : Graph} {p : Prop} {tree : Tree α}
    (hg : Graph.ofText schema text = .ok (some (g, 0)))
    (h : GivesIff p (Draft.ofRoot 0 (.start schema g)) fun r =>
      r.1.substitute (Draft.resolved r.2.contentOf (g.size + 1) []) = tree) :
    GivesIff p (Tree.ofText schema text) (· = tree) := by
  rw [Tree.ofText, hg]
  show GivesIff p (Tree.ofGraph schema g 0) (· = tree)
  exact (h.bind (q := True) fun r hr => .of_ok rfl hr).congr (and_iff_left trivial)

/-- A list of maps is read as what it says, just if no map has a key twice. -/
theorem ofText_list {items : List Outline} {tree : Tree α} (h : (list items).Sound)
    (ht : (list items).meaning? = some tree)
    (hmaps : ∀ item ∈ items, ∃ entries, item = map entries) :
    GivesIff (list items).Distinct (Tree.ofText .reduced ((list items).write .start 0))
      (· = tree) := by
  obtain ⟨g, hg, hsize, hh⟩ := graph_write .reduced h (by simp)
  obtain ⟨draft, hdraft, hsub⟩ := exists_draft ht
  obtain ⟨drafts, hdrafts, rfl⟩ := Option.map_eq_some_iff.1 hdraft
  refine ofText_of_root hg ((Draft.ofRoot_list hh hsize hdrafts hmaps).mono ?_)
  rintro ⟨_, m⟩ ⟨rfl, hcontent⟩
  show (m.contentOf 0).substitute (Draft.resolved m.contentOf g.size [0]) = tree
  rw [hcontent, hsub]

/-- A root that is made at once is what is read. -/
theorem ofText_of_node {schema : Tag.Schema} {text : Text} {g : Graph} {p : Prop} {draft : Draft}
    {tree : Tree α} (hg : Graph.ofText schema text = .ok (some (g, 0)))
    (h : GivesIff p (Draft.ofNode (g.size + 1) false 0 (.start schema g)) fun r =>
      r.1 = draft ∧ r.2.postponed = #[])
    (hs : ∀ put, Tree.substitute put draft = tree) :
    GivesIff p (Tree.ofText schema text) (· = tree) := by
  refine ofText_of_root hg ?_
  show GivesIff p ((do
    let draft ← Draft.ofNode (g.size + 1) false 0
    Draft.fillFrom (g.size + 1) (g.size + 1) 0
    return draft : Making Draft) (.start schema g)) _
  refine (h.bindAt (q := True) ?_).congr (and_iff_left trivial)
  rintro ⟨_, m⟩ ⟨rfl, hp⟩
  have hfill : Draft.fillFrom (g.size + 1) (g.size + 1) 0 m = .ok ((), m) :=
    Draft.fillFrom_end (by rw [hp]; rfl)
  exact .of_ok (bind_ok hfill _) (hs _)

/-- A text with the tokens of a map is read as what the map says, just if no map has a key twice. -/
theorem ofText_of_tokens {entries : List (Word × Outline)} {tree : Tree α} {text : Text}
    (h : (map entries).Sound) (ht : (map entries).meaning? = some tree)
    (htokens : ∃ tokens, TokenStream.ofText text = ⟨tokens, none⟩
      ∧ tokens.map (·.kind) = [.streamStart] ++ (map entries).kinds ++ [.streamEnd]) :
    GivesIff (map entries).Distinct (Tree.ofText .reduced text) (· = tree) := by
  obtain ⟨g, hg, hsize, hh⟩ := graph_of_tokens h (by simp) htokens
  obtain ⟨draft, hdraft, hsub⟩ := exists_draft ht
  have hentries := Draft.entries_make entries g.size (by rw [hsize, size]; omega)
  have hmakes := Draft.map_makes false hentries hdraft rfl hh fun i _ _ =>
    progressOf_start .reduced g i
  exact ofText_of_node hg (hmakes.mono fun r hr => ⟨hr.1, hr.2.postponed⟩) hsub

/-- A map is read as what it says, just if no map has a key twice. -/
theorem ofText_map {entries : List (Word × Outline)} {tree : Tree α} (h : (map entries).Sound)
    (ht : (map entries).meaning? = some tree) :
    GivesIff (map entries).Distinct (Tree.ofText .reduced ((map entries).write .start 0))
      (· = tree) :=
  ofText_of_tokens h ht (tokenStream_write h (by simp))

/-- A list of maps whose keys are texts is read as its tree. -/
theorem ofText_write_list {items : List Outline} {tree : Tree α} (h : (list items).Sound)
    (hk : (list items).Keyed) (ht : (list items).tree? = some tree)
    (hmaps : ∀ item ∈ items, ∃ entries, item = map entries) :
    Tree.ofText .reduced ((list items).write .start 0) = .ok tree := by
  rw [← meaning?_of_keyed _ hk] at ht
  obtain ⟨_, hread, rfl⟩ := (ofText_list h ht hmaps).exists_ok (distinct_of_keyed _ hk)
  exact hread

/-- A map whose keys are texts is read as its tree. -/
theorem ofText_write_map {entries : List (Word × Outline)} {tree : Tree α}
    (h : (map entries).Sound) (hk : (map entries).Keyed) (ht : (map entries).tree? = some tree) :
    Tree.ofText .reduced ((map entries).write .start 0) = .ok tree := by
  rw [← meaning?_of_keyed _ hk] at ht
  obtain ⟨_, hread, rfl⟩ := (ofText_map h ht).exists_ok (distinct_of_keyed _ hk)
  exact hread

/-- A word between quotation marks is read as its text. -/
theorem ofText_word (schema : Tag.Schema) {w : Word} (h : w.Sound) (hs : w.style ≠ .plain) :
    ∃ form, (Tree.ofText schema w.written : Reading (Tree α)) = .ok (.text w.value form) := by
  obtain ⟨g, hg, -, hc, htag⟩ := graph_word schema h hs
  have htag : (g.node 0).tag = .str := by
    rw [htag, NodeContent.ownTag, Composer.scalarTag, decide_eq_false hs]
    rfl
  obtain ⟨form, hstring⟩ := Draft.exists_string schema w.value w.style
  have hnode : Comes (.start schema g) 0 (1 + 0) True (Draft.ofNode (g.size + 1) false 0)
      (.text w.value form) :=
    Draft.node_comes (progressOf_start schema g 0) fun m₁ h₁ =>
      comes_ok ((Draft.build_string (h₁.graph ▸ htag)).trans
        (hstring m₁ 0 h₁.schema (h₁.graph ▸ hc))) (.refl m₁ 1 0)
  have hread : GivesIff True (Tree.ofText schema w.written) (· = (.text w.value form : Tree α)) :=
    ofText_of_node hg (hnode.mono fun r hr => ⟨hr.1, hr.2.postponed⟩) fun _ => rfl
  obtain ⟨_, hok, rfl⟩ := hread.exists_ok trivial
  exact ⟨form, hok⟩

end Outline

end ModernControls.Yaml
