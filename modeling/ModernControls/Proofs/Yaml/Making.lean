import ModernControls.Proofs.Outcomes
import ModernControls.Proofs.Tables
import ModernControls.Proofs.Yaml.Steps
import ModernControls.Yaml.Draft.OfNode

/-!
# Making drafts

What is said of all drafts while they are made. Something that is true of scalars, of collections of
good drafts and of collections that wait, stays true of everything that is made, and each step is
refused for the reasons for which scalars are. For this the nodes must have stayed as they should:
merging gives mappings other entries and makes value keys texts, but it changes nothing else.

Results:
- `Graph.merge_changes`: what merging does to the nodes;
- `Draft.keeps_ofNode`, `Draft.ofRoot_ends`: the making of all nodes.
-/

namespace ModernControls.Yaml

/-! ## Merging -/

/-- What merging does to a node: a mapping may get other entries, and a value key may become a
text. -/
structure Node.Changes (n n' : Node) : Prop where
  tag : n'.tag = n.tag ∨ n.tag = .value ∧ n'.tag = .str
  content : n'.content = n.content ∨
    ∃ entries entries', n.content = .mapping entries ∧ n'.content = .mapping entries'

namespace Node.Changes

variable {n n' n'' : Node}

theorem refl (n : Node) : Changes n n := ⟨.inl rfl, .inl rfl⟩

theorem trans (h : Changes n n') (h' : Changes n' n'') : Changes n n'' where
  tag := by
    rcases h.tag with ht | ht
    · exact ht ▸ h'.tag
    · rcases h'.tag with ht' | ht'
      · exact .inr ⟨ht.1, ht'.trans ht.2⟩
      · exact absurd (ht.2.symm.trans ht'.1) (by decide)
  content := by
    rcases h.content with hc | ⟨entries, entries', he, he'⟩
    · exact hc ▸ h'.content
    · rcases h'.content with hc' | ⟨_, entries'', _, he''⟩
      · exact .inr ⟨entries, entries', he, hc'.trans he'⟩
      · exact .inr ⟨entries, entries'', he, he''⟩

end Node.Changes

namespace Graph

/-- Whether all nodes of a graph come from those of another by merging. -/
def Changes (g g' : Graph) : Prop := ∀ id, (g.node id).Changes (g'.node id)

/-- Whether a node is a mapping. -/
def IsMapping (g : Graph) (id : NodeId) : Prop :=
  ∃ entries, (g.node id).content = .mapping entries

variable {g g' g'' : Graph} {id : NodeId}

theorem Changes.refl (g : Graph) : Changes g g := fun _ => .refl _

theorem Changes.trans (h : Changes g g') (h' : Changes g' g'') : Changes g g'' :=
  fun id => (h id).trans (h' id)

theorem IsMapping.changes (hm : g.IsMapping id) (h : Changes g g') : g'.IsMapping id := by
  rcases (h id).content with hc | ⟨_, entries', _, he'⟩
  · exact hm.imp fun entries he => hc.trans he
  · exact ⟨entries', he'⟩

theorem changes_update {change : Node → Node} (h : (g.node id).Changes (change (g.node id))) :
    Changes g (g.update id change) := by
  intro other
  by_cases ho : id = other
  · subst ho
    by_cases hlt : id < g.size
    · rw [node_update g id change hlt]
      exact h
    · have hnone : g.nodes[id]? = none := Array.getElem?_eq_none (Nat.le_of_not_lt hlt)
      have hnode : (g.update id change).node id = g.node id := by
        simp [node, update, Array.getElem?_modify, hnone]
      rw [hnode]
      exact .refl _
  · rw [node_update_of_ne g id other change ho]
    exact .refl _

theorem changes_setEntries (hm : g.IsMapping id) (entries : List NodeEntry) :
    Changes g (g.setEntries id entries) :=
  changes_update ⟨.inl rfl, .inr ⟨hm.choose, entries, hm.choose_spec, rfl⟩⟩

theorem changes_plainKey (g : Graph) (id : NodeId) : Changes g (g.plainKey id) := by
  rw [plainKey]
  split
  · next htag => exact changes_update ⟨.inr ⟨htag, rfl⟩, .inl rfl⟩
  · exact .refl g

theorem changes_plainKeys (g : Graph) (entries : List NodeEntry) :
    Changes g (g.plainKeys entries) := by
  induction entries generalizing g with
  | nil => exact .refl g
  | cons entry rest ih => exact (changes_plainKey g entry.1).trans (ih _)

theorem changes_settle (hm : g.IsMapping id) (merged own : List NodeEntry) :
    Changes g (g.settle id merged own) := by
  rw [settle]
  split
  · exact changes_plainKeys g own
  · exact (changes_setEntries hm _).trans (changes_plainKeys _ _)

section Sources

variable {merge : Graph → NodeId → Except Fault Graph} {since : Mark} {found : List NodeEntry}
  (h : ∀ {g id g'}, IsMapping g id → merge g id = .ok g' → Changes g g')
include h

theorem changes_mergedItems {ids : List NodeId}
    (hi : mergedItems merge since g ids = .ok (g', found)) : Changes g g' := by
  induction ids generalizing g found with
  | nil =>
    cases hi
    exact .refl _
  | cons id rest ih =>
    rw [mergedItems.eq_def] at hi
    dsimp only at hi
    split at hi
    · next entries hc =>
      obtain ⟨g₁, hm, hi⟩ := exists_of_bind hi
      obtain ⟨r, hr, hi⟩ := exists_of_bind hi
      cases hi
      exact (h ⟨entries, hc⟩ hm).trans (ih hr)
    · cases hi

theorem changes_mergedSource {source : NodeId}
    (hs : mergedSource merge since g source = .ok (g', found)) : Changes g g' := by
  rw [mergedSource] at hs
  split at hs
  · next entries hc =>
    obtain ⟨g₁, hm, hs⟩ := exists_of_bind hs
    cases hs
    exact h ⟨entries, hc⟩ hm
  · exact changes_mergedItems h hs
  · cases hs

end Sources

theorem changes_mergeInto {budget : Nat} {merged : List NodeEntry} (hm : g.IsMapping id)
    (h : mergeInto budget merged g id = .ok g') : Changes g g' := by
  induction budget generalizing g id g' merged with
  | zero =>
    cases h
    exact .refl g
  | succ budget ih =>
    rw [mergeInto] at h
    dsimp only at h
    split at h
    · cases h
      exact changes_settle hm _ _
    · obtain ⟨r, hs, h⟩ := exists_of_bind h
      have hset := changes_setEntries hm ((g.entries id).eraseP g.isMerge)
      have hsource := hset.trans (changes_mergedSource ih hs)
      exact hsource.trans (ih (hm.changes hsource) h)

theorem merge_changes {budget : Nat} (hm : g.IsMapping id) (h : g.merge budget id = .ok g') :
    Changes g g' := changes_mergeInto hm h

end Graph

/-! ## What is said of drafts -/

/-- What is said of nodes, of the drafts that are made of them, and of the errors with which the
making is refused. -/
structure Draft.Law where
  schema : Tag.Schema
  fits : Node → Prop
  good : Draft → Prop
  refused : Error → Prop

/-- Whether it is true of all nodes and of all drafts that are made so far. -/
structure Maker.Holds (law : Draft.Law) (m : Maker) : Prop where
  schema : m.schema = law.schema
  nodes : ∀ id, law.fits (m.graph.node id)
  made : ∀ id draft, m.progressOf id = .made draft → law.good draft
  contents : ∀ id, law.good (m.contentOf id)

namespace Draft

open Maker

variable {β γ : Type}

/-- A step of making drafts that keeps what is said. -/
abbrev Law.Sustains (law : Law) (step : Making β) (given : β → Prop) : Prop :=
  Keeps law.refused (Maker.Holds law) step given

/-- Whether what is said of scalars is true of everything that is made. -/
structure Law.Extends (law : Law) : Prop where
  changes {n n' : Node} : law.fits n → n.Changes n' → law.fits n'
  fault (fault : Fault) : law.refused (.fault fault)
  long {key : Draft} : law.good key → key.isLong = true → law.refused (.breakage .longInteger)
  entries {n : Node} {value : Text} {style : ScalarStyle} :
    law.fits n → n.tag = .map → mayWait law.schema .map = false →
      n.content = .scalar value style → value.isEmpty = false → law.refused (.breakage .entries)
  shape {n : Node} {ids : List NodeId} :
    law.fits n → n.tag = .map → mayWait law.schema .map = false →
      n.content = .sequence ids → ids.isEmpty = false → law.refused (.breakage .shape)
  scalar (id : NodeId) : law.Sustains (Draft.scalar id) law.good
  null : law.good .null
  waiting (id : NodeId) : law.good (.foreign (.collection id))
  pair {key value : Draft} : law.good key → law.good value → law.good (.tuple [key, value])
  list {drafts : List Draft} : (∀ d ∈ drafts, law.good d) → law.good (.list drafts)
  set {drafts : List Draft} : (∀ d ∈ drafts, law.good d) → law.good (.set drafts)
  map {entries : List (Draft × Draft)} :
    (∀ e ∈ entries, law.good e.1 ∧ law.good e.2) → law.good (.map entries)

variable {law : Law}

/-! ## Steps -/

theorem keeps_nodeAt (id : NodeId) : law.Sustains (nodeAt id) law.fits :=
  Keeps.bind .get fun _ hm => .pure (hm.nodes id)

section Faults

variable (h : ∀ fault, law.refused (.fault fault))
include h

theorem keeps_raise (fault : Fault) {given : β → Prop} : law.Sustains (raise fault) given :=
  fun _ _ => h fault

theorem keeps_orRaise {x : Except Fault β} {given : β → Prop}
    (hx : ∀ b, x = .ok b → given b) : law.Sustains (orRaise x) given := by
  cases x with
  | ok b => exact .pure (hx b rfl)
  | error fault => exact keeps_raise h fault

end Faults

theorem keeps_setProgress {p : Progress} (hp : ∀ draft, p = .made draft → law.good draft)
    (id : NodeId) : law.Sustains (setProgress id p) fun _ => True := by
  refine Keeps.modify (fun m hm => ?_) trivial
  refine ⟨hm.schema, hm.nodes, fun other draft h => ?_, hm.contents⟩
  simp only [progressOf, Array.getElem?_setIfInBounds] at h
  split at h
  · split at h
    · exact hp draft h
    · cases h
  · exact hm.made other draft h

theorem keeps_setContent (h : law.Extends) {draft : Draft} (hd : law.good draft) (id : NodeId) :
    law.Sustains (setContent id draft) fun _ => True := by
  refine Keeps.modify (fun m hm => ⟨hm.schema, hm.nodes, hm.made, fun other => ?_⟩) trivial
  simp only [contentOf, Array.getElem?_setIfInBounds]
  split
  · split
    · exact hd
    · exact h.null
  · exact hm.contents other

theorem keeps_postpone (id : NodeId) : law.Sustains (postpone id) fun _ => True :=
  Keeps.modify (fun _ hm => ⟨hm.schema, hm.nodes, hm.made, hm.contents⟩) trivial

theorem get_ends (refused : Error → Prop) (m : Maker) :
    Ends refused ((MonadState.get : Making Maker) m) fun r => r = (m, m) := rfl

theorem nodeAt_ends (refused : Error → Prop) (id : NodeId) (m : Maker) :
    Ends refused (nodeAt id m) fun r => r = (m.graph.node id, m) := rfl

/-- A mapping gets the entries that its merge keys name. -/
theorem mergeAt_ends (h : law.Extends) {m : Maker} (hm : m.Holds law) {id : NodeId}
    (hid : m.graph.IsMapping id) :
    Ends law.refused (mergeAt id m) fun r => r.2.Holds law ∧ True := by
  change Ends law.refused
    ((orRaise (m.graph.merge m.budget id) >>= fun g => set { m with graph := g }) m) _
  cases hg : m.graph.merge m.budget id with
  | error fault => exact h.fault fault
  | ok g =>
    have hnodes := fun i => h.changes (hm.nodes i) (Graph.merge_changes hid hg i)
    exact ⟨⟨hm.schema, hnodes, hm.made, hm.contents⟩, trivial⟩

/-! ## Collections -/

/-- Whether what is said of drafts is true of the keys and values of entries. -/
def Law.GoodEntries (law : Law) (entries : List (Draft × Draft)) : Prop :=
  ∀ e ∈ entries, law.good e.1 ∧ law.good e.2

section Collections

variable (h : law.Extends) {make : NodeId → Making Draft}
  (hmake : ∀ id, law.Sustains (make id) law.good)
include h hmake

theorem keeps_pair (activity : Activity) (since : Mark) (id : NodeId) :
    law.Sustains (pair make activity since id) law.good := by
  refine .bind (keeps_nodeAt id) fun node _ => ?_
  split
  · exact .bind (hmake _) fun _ hk => .bind (hmake _) fun _ hv => .pure (h.pair hk hv)
  · exact keeps_raise h.fault _
  · exact keeps_raise h.fault _

theorem keeps_pairs (activity : Activity) (node : Node) :
    law.Sustains (pairs make activity node) law.good := by
  rw [pairs]
  split
  · exact .bind (.mapM fun id => keeps_pair h hmake activity node.mark id) fun _ hd =>
      .pure (h.list hd)
  · exact keeps_raise h.fault _

theorem keeps_items (node : Node) : law.Sustains (items make node) law.good := by
  rw [items]
  split
  · exact .bind (.mapM hmake) fun _ hd => .pure (h.list hd)
  · exact keeps_raise h.fault _

theorem keeps_key (since : Mark) (id : NodeId) : law.Sustains (key make since id) law.good := by
  refine .bind (hmake id) fun draft hd => ?_
  split
  · exact .pure hd
  · exact .bind (keeps_nodeAt id) fun _ _ => keeps_raise h.fault _

theorem keeps_addEntry (since : Mark) (done : List (Draft × Draft)) (entry : NodeEntry)
    (hd : law.GoodEntries done) :
    law.Sustains (addEntry make since done entry) law.GoodEntries :=
  .bind (keeps_key h hmake since entry.1) fun _ hk => .bind (hmake entry.2) fun _ hv =>
    .pure (Tree.forall_insertEntry hd hk hv)

theorem keeps_addNewEntry (since : Mark) (done : List (Draft × Draft)) (entry : NodeEntry)
    (hd : law.GoodEntries done) :
    law.Sustains (addNewEntry make since done entry) law.GoodEntries := by
  refine .bind (keeps_key h hmake since entry.1) fun k hk => ?_
  split
  · rw [repeated]
    split
    · next hlong => exact fun _ _ => h.long hk hlong
    · exact .bind (keeps_nodeAt _) fun _ _ => keeps_raise h.fault _
  · refine .bind (hmake entry.2) fun v hv => .pure fun e he => ?_
    rcases List.mem_append.1 he with he | he
    · exact hd e he
    · exact List.mem_singleton.1 he ▸ ⟨hk, hv⟩

omit hmake in
theorem entriesBy_ends
    {add : Mark → List (Draft × Draft) → NodeEntry → Making (List (Draft × Draft))}
    (hadd : ∀ since done entry, law.GoodEntries done →
      law.Sustains (add since done entry) law.GoodEntries)
    {m : Maker} (hm : m.Holds law) {id : NodeId} (hid : m.graph.IsMapping id) :
    Ends law.refused (entriesBy add id m) fun r => r.2.Holds law ∧ law.GoodEntries r.1 :=
  Ends.bindAt (mergeAt_ends h hm hid) fun r hr =>
    Keeps.bind (keeps_nodeAt id) (fun node _ =>
      .foldlM (fun done entry => hadd node.mark done entry) (List.forall_mem_nil _)) r.2 hr.1

theorem keeps_entries (id : NodeId) : law.Sustains (entries make id) law.GoodEntries := by
  refine fun m hm => Ends.bindAt (nodeAt_ends law.refused id m) ?_
  rintro _ rfl
  cases hc : (m.graph.node id).content with
  | mapping es => exact entriesBy_ends h (keeps_addEntry h hmake) hm ⟨es, hc⟩
  | scalar value style => exact keeps_raise h.fault _ m hm
  | sequence ids => exact keeps_raise h.fault _ m hm

theorem keeps_content (id : NodeId) : law.Sustains (content make id) law.good := by
  refine .bind (keeps_nodeAt id) fun node _ => ?_
  split
  · exact keeps_pairs h hmake _ node
  · exact keeps_pairs h hmake _ node
  · refine .bind (keeps_entries h hmake id) fun entries he => .pure (h.set fun d hd => ?_)
    obtain ⟨e, hm, rfl⟩ := List.mem_map.1 hd
    exact (he e hm).1
  · exact .bind (keeps_entries h hmake id) fun entries he => .pure (h.map he)
  · exact keeps_items h hmake node

theorem strictMap_ends {m : Maker} (hm : m.Holds law) {id : NodeId}
    (htag : (m.graph.node id).tag = .map) (hnow : mayWait law.schema .map = false) :
    Ends law.refused (strictMap make id m) fun r => r.2.Holds law ∧ law.good r.1 := by
  have hempty : law.Sustains (pure (.map [])) law.good := .pure (h.map (List.forall_mem_nil _))
  have hfits := hm.nodes id
  refine Ends.bindAt (nodeAt_ends law.refused id m) ?_
  rintro _ rfl
  cases hc : (m.graph.node id).content with
  | mapping es =>
    refine Ends.bindAt (entriesBy_ends h (keeps_addNewEntry h hmake) hm ⟨es, hc⟩) fun r hr => ?_
    exact ⟨hr.1, h.map hr.2⟩
  | scalar value style =>
    dsimp only
    split
    · exact hempty m hm
    · next hv => exact h.entries hfits htag hnow hc (by simpa using hv)
  | sequence ids =>
    dsimp only
    split
    · exact hempty m hm
    · next hv => exact h.shape hfits htag hnow hc (by simpa using hv)

end Collections

/-! ## All nodes -/

theorem keeps_build (h : law.Extends) {make : Bool → NodeId → Making Draft}
    (hmake : ∀ atOnce id, law.Sustains (make atOnce id) law.good) (atOnce : Bool) (id : NodeId) :
    law.Sustains (build make atOnce id) law.good := by
  refine fun m hm => Ends.bindAt (nodeAt_ends law.refused id m) ?_
  rintro _ rfl
  refine Ends.bindAt (get_ends law.refused m) ?_
  rintro _ rfl
  dsimp only
  split
  · split
    · exact keeps_content h (hmake true) id m hm
    · exact Keeps.bind (keeps_postpone id) (fun _ _ => .pure (h.waiting id)) m hm
  · next hwait =>
    split
    · next htag =>
      rw [htag, hm.schema, Bool.not_eq_true] at hwait
      exact strictMap_ends h (hmake true) hm htag hwait
    · exact h.scalar id m hm

/-- A node that is made already has its draft. -/
theorem keeps_once (h : law.Extends) {make : Making Draft} (hmake : law.Sustains make law.good)
    (id : NodeId) : law.Sustains (once id make) law.good := by
  intro m hm
  rw [once]
  split
  · have hstarted : law.Sustains (setProgress id .started) fun _ => True :=
      keeps_setProgress (fun _ hp => by cases hp) id
    refine Keeps.bind hstarted (fun _ _ => .bind hmake fun draft hd => ?_) m hm
    refine .bind (keeps_setProgress (fun _ hp => ?_) id) fun _ _ => .pure hd
    exact Progress.made.inj hp ▸ hd
  · exact h.fault _
  · next draft hmade => exact ⟨hm, hm.made id draft hmade⟩

theorem keeps_ofNode (h : law.Extends) (budget : Nat) (atOnce : Bool) (id : NodeId) :
    law.Sustains (ofNode budget atOnce id) law.good := by
  induction budget generalizing atOnce id with
  | zero => exact .bind (keeps_nodeAt id) fun _ _ => keeps_raise h.fault _
  | succ budget ih => exact keeps_once h (keeps_build h ih atOnce id) id

theorem keeps_fillFrom (h : law.Extends) (depth budget place : Nat) :
    law.Sustains (fillFrom depth budget place) fun _ => True := by
  induction budget generalizing place with
  | zero => exact .pure trivial
  | succ budget ih =>
    refine .bind .get fun m _ => ?_
    split
    · exact .pure trivial
    · next id _ =>
      exact .bind (keeps_content h (keeps_ofNode h depth false) id) fun draft hd =>
        .bind (keeps_setContent h hd id) fun _ _ => ih (place + 1)

theorem keeps_ofRoot (h : law.Extends) (root : NodeId) : law.Sustains (ofRoot root) law.good :=
  .bind .get fun _ _ => .bind (keeps_ofNode h _ _ root) fun _ hd =>
    .bind (keeps_fillFrom h _ _ _) fun _ _ => .pure hd

theorem holds_start (h : law.Extends) {graph : Graph} (hg : ∀ id, law.fits (graph.node id)) :
    (Maker.start law.schema graph).Holds law where
  schema := rfl
  nodes := hg
  made := fun id draft h => by
    simp only [Maker.start, progressOf, Array.getElem?_replicate] at h
    split at h <;> cases h
  contents := fun id => by
    simp only [Maker.start, contentOf, Array.getElem?_replicate]
    split <;> exact h.null

/-- What the making of a whole graph ends with. -/
theorem ofRoot_ends (h : law.Extends) {graph : Graph} (hg : ∀ id, law.fits (graph.node id))
    (root : NodeId) : Ends law.refused ((ofRoot root).run (.start law.schema graph)) fun r =>
      r.2.Holds law ∧ law.good r.1 := keeps_ofRoot h root _ (holds_start h hg)

end Draft

end ModernControls.Yaml
