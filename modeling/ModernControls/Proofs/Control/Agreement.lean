import ModernControls.Proofs.Control.Keys
import ModernControls.Proofs.Texts

/-!
# Trees that mean the same

The tree that is read back is not the tree that was written: texts may have got another form, and a
formula may stand after its sign instead of its mark. Two trees agree if their texts mean the same,
and they are the same otherwise. A tree that agrees with that of a document is read as the document.

Results:
- `classify_of_agrees`, `normalize_of_agrees`: a value is found again in a tree that agrees;
- `control_of_agrees`: so is a control;
- `document_of_agrees`: so is a document.
-/
namespace ModernControls

open Yaml Property

mutual

/-- Whether a tree that is read means what a written tree does. -/
def Agrees : PlainValue → PlainValue → Prop
  | .text t _, tree => ∃ s form, tree = .text s form ∧ classifyText s form = classifyText t .quoted
  | .list items, tree => ∃ trees, tree = .list trees ∧ AgreesItems items trees
  | .map entries, tree => ∃ trees, tree = .map trees ∧ AgreesEntries entries trees
  | source, tree => tree = source

/-- Whether the trees of a list mean what items do. -/
def AgreesItems : List PlainValue → List PlainValue → Prop
  | [], trees => trees = []
  | item :: rest, trees => ∃ t ts, trees = t :: ts ∧ Agrees item t ∧ AgreesItems rest ts

/-- Whether the trees of a map have the keys of entries and mean what their values do. -/
def AgreesEntries : List (PlainValue × PlainValue) → List (PlainValue × PlainValue) → Prop
  | [], trees => trees = []
  | (key, value) :: rest, trees => ∃ form t ts, trees = (.text key.keyText form, t) :: ts
      ∧ Agrees value t ∧ AgreesEntries rest ts

end

theorem keyName_text (k : Text) (form : TextForm) : keyName (.text k form) = .ok k := rfl

namespace Property

/-! ## Texts -/

/-- A text that does not begin with the mark means itself between quotation marks. -/
theorem formula?_of_agrees {s t : Text} {form : TextForm} (ht : t.head? ≠ some formulaMark)
    (h : classifyText s form = classifyText t .quoted) :
    formula? s form = none ∧ unmarked s = t := by
  rw [classifyText_of_quoted ht, classifyText] at h
  cases hf : formula? s form with
  | some e => rw [hf] at h; cases h
  | none =>
    rw [hf] at h
    exact ⟨rfl, (Property.string.inj h).1⟩

theorem eq_of_agrees {s t : Text} {form : TextForm} (ht : t.head? ≠ some formulaMark)
    (h : classifyText s form = classifyText t .quoted) : s = t := by
  have hu := (formula?_of_agrees ht h).2
  rw [unmarked] at hu
  split at hu
  · next htwice =>
    rw [isMarkedTwice.eq_def] at htwice
    split at htwice
    · next a b r =>
      simp only [Bool.and_eq_true, decide_eq_true_eq] at htwice
      exact absurd (by rw [← hu, htwice.2]; rfl) ht
    · cases htwice
  · exact hu

theorem classifyText_twice (t : Text) :
    classifyText (formulaMark :: formulaMark :: t) .quoted = ofText (formulaMark :: t) := by
  have htwice : isMarkedTwice (formulaMark :: formulaMark :: t) = true := by simp [isMarkedTwice]
  rw [classifyText, formula?, if_pos htwice, unmarked, if_pos htwice]
  rfl

/-- A text is written as a text that means it between quotation marks. -/
theorem treeOfText_plain (t : Text) : ∃ s form, treeOfText t .plain = .text s form
    ∧ classifyText s .quoted = ofText t := by
  rw [treeOfText]
  split
  · next h =>
    obtain ⟨c, r, rfl⟩ : ∃ c r, t = c :: r := List.exists_cons_of_ne_nil (by rintro rfl; simp at h)
    obtain rfl : c = formulaMark := by simpa using h
    exact ⟨_, _, rfl, classifyText_twice r⟩
  · next h =>
    have hq := classifyText_of_quoted h
    split
    · exact ⟨_, _, rfl, hq⟩
    · split <;> exact ⟨_, _, rfl, hq⟩

/-! ## Values of properties -/

mutual

/-- Whether the formulas in a value do not begin with the mark. -/
def Unmarked : Property → Prop
  | .formula e => e.head? ≠ some formulaMark
  | .object entries => UnmarkedEntries entries
  | _ => True

/-- Whether this is so in all entries. -/
def UnmarkedEntries : List (Text × Property) → Prop
  | [] => True
  | (_, value) :: rest => Unmarked value ∧ UnmarkedEntries rest

end

mutual

theorem classify_of_agrees : ∀ (p : Property) {tree : PlainValue} (path : Text), p.WellFormed →
    p.Unmarked → Agrees p.toTree tree → classify path tree = .ok p
  | .empty, _, _, _, _, h => by rw [show _ = _ from h]; rfl
  | .bool _, _, _, _, _, h => by rw [show _ = _ from h]; rfl
  | .int _, _, _, _, _, h => by rw [show _ = _ from h]; rfl
  | .float _, _, _, _, _, h => by rw [show _ = _ from h]; rfl
  | .formula e, _, path, _, hm, h => by
    obtain ⟨s, form, rfl, hs⟩ := h
    rw [classify, hs, classifyText_of_marked hm]
  | .string t form, _, path, hw, _, h => by
    obtain rfl : form = .plain := hw
    obtain ⟨u, form, hu, hq⟩ := treeOfText_plain t
    rw [toTree, hu] at h
    obtain ⟨s, form', rfl, hs⟩ := h
    rw [classify, hs, hq]
    rfl
  | .object entries, _, path, hw, hm, h => by
    obtain ⟨trees, rfl, hs⟩ := h
    rw [classify, classifyEntries_of_agrees entries path hw.2 hm hs]
    show Except.ok (Property.object (Table.ofEntries entries)) = _
    rw [Table.ofEntries_of_nodup hw.1]

theorem classifyEntries_of_agrees : ∀ (entries : List (Text × Property))
    {trees : List (PlainValue × PlainValue)} (path : Text), WellFormedEntries entries →
      UnmarkedEntries entries → AgreesEntries (toTreeEntries entries) trees →
        classifyEntries path trees = .ok entries
  | [], _, _, _, _, h => by rw [show _ = _ from h]; rfl
  | (key, value) :: rest, _, path, hw, hm, h => by
    obtain ⟨form, t, ts, rfl, ht, hts⟩ := h
    have hv := classify_of_agrees value (path ++ '.' :: key) hw.1 hm.1 ht
    have hr := classifyEntries_of_agrees rest path hw.2 hm.2 hts
    rw [classifyEntries, PropertyKey.plain_text, Yaml.Tree.keyText, keyName_text]
    simp only [bind, Except.bind, hv, hr]

end

end Property

namespace Control

/-! ## Further parts -/

theorem normalize_of_formula {s e : Text} {form : TextForm}
    (h : classifyText s form = .formula e) :
    normalize (.text s form) = .ok (.foreign (.property (.formula e))) := by
  rw [classifyText] at h
  rw [normalize]
  split at h
  · next hf =>
    obtain rfl := Property.formula.inj h
    rfl
  · cases h

theorem normalize_of_text {s t : Text} {form : TextForm} (h : classifyText s form = ofText t) :
    normalize (.text s form) = .ok (.text t .plain) := by
  rw [classifyText] at h
  rw [normalize]
  split at h
  · cases h
  · next hf =>
    obtain rfl := (Property.string.inj h).1
    rfl

/-- Entries whose keys are texts without a form, none of them repeated, are a map as they are. -/
theorem ofEntries_of_normal {entries : List (PlainValue × PlainValue)} (h : NormalEntries entries)
    (hd : (entries.map (·.1.keyText)).Nodup) : Yaml.Tree.ofEntries entries = .map entries := by
  have htexts : ∀ es : List (PlainValue × PlainValue), NormalEntries es →
      Yaml.Tree.ofTexts (es.map fun e => (e.1.keyText, e.2)) = es := by
    intro es
    induction es with
    | nil => exact fun _ => rfl
    | cons e es ih =>
      obtain ⟨key, value⟩ := e
      rintro ⟨⟨k, rfl⟩, -, hes⟩
      have := ih hes
      rw [Yaml.Tree.ofTexts] at this ⊢
      rw [List.map_cons, List.map_cons, this]
      rfl
  rw [← htexts entries h, Yaml.Tree.ofEntries_texts, Table.ofEntries_of_nodup]
  rw [List.map_map]
  exact hd

mutual

/-- Whether the formulas in a further part do not begin with the mark. -/
def Unmarked : PlainValue → Prop
  | .list items => UnmarkedItems items
  | .map entries => UnmarkedEntries entries
  | .foreign (.property value) => value.Unmarked
  | _ => True

/-- Whether this is so in all items. -/
def UnmarkedItems : List PlainValue → Prop
  | [] => True
  | item :: rest => Unmarked item ∧ UnmarkedItems rest

/-- Whether this is so in all values. -/
def UnmarkedEntries : List (PlainValue × PlainValue) → Prop
  | [] => True
  | (_, value) :: rest => Unmarked value ∧ UnmarkedEntries rest

end

mutual

theorem normalize_of_agrees : ∀ (value : PlainValue) {tree : PlainValue}, Normal value →
    Unmarked value → Agrees (treeOfExtra value) tree → normalize tree = .ok value
  | .null, _, _, _, h => by rw [show _ = _ from h]; rfl
  | .bool _, _, _, _, h => by rw [show _ = _ from h]; rfl
  | .int _, _, _, _, h => by rw [show _ = _ from h]; rfl
  | .float _, _, _, _, h => by rw [show _ = _ from h]; rfl
  | .bytes _, _, _, _, h => by rw [show _ = _ from h]; rfl
  | .moment _, _, _, _, h => by rw [show _ = _ from h]; rfl
  | .tuple _, _, _, _, h => by rw [show _ = _ from h]; rfl
  | .set _, _, _, _, h => by rw [show _ = _ from h]; rfl
  | .text t form, _, hn, _, h => by
    obtain rfl : form = .plain := hn
    obtain ⟨u, form, hu, hq⟩ := treeOfText_plain t
    rw [treeOfExtra, hu] at h
    obtain ⟨s, form', rfl, hs⟩ := h
    exact normalize_of_text (hs.trans hq)
  | .foreign value, _, hn, hm, h => by
    obtain ⟨e, rfl⟩ := hn
    obtain ⟨s, form, rfl, hs⟩ := h
    exact normalize_of_formula (hs.trans (classifyText_of_marked hm .quoted))
  | .list items, _, hn, hm, h => by
    obtain ⟨trees, rfl, hs⟩ := h
    rw [normalize, normalizeItems_of_agrees items hn hm hs]
    rfl
  | .map entries, _, hn, hm, h => by
    obtain ⟨trees, rfl, hs⟩ := h
    rw [normalize, normalizeEntries_of_agrees entries hn.2 hm hs]
    exact congrArg Except.ok (ofEntries_of_normal hn.2 hn.1)

theorem normalizeItems_of_agrees : ∀ (items : List PlainValue) {trees : List PlainValue},
    NormalItems items → UnmarkedItems items → AgreesItems (treesOfItems items) trees →
      normalizeItems trees = .ok items
  | [], _, _, _, h => by rw [show _ = _ from h]; rfl
  | item :: rest, _, hn, hm, h => by
    obtain ⟨t, ts, rfl, ht, hts⟩ := h
    have hi := normalize_of_agrees item hn.1 hm.1 ht
    have hr := normalizeItems_of_agrees rest hn.2 hm.2 hts
    simp only [normalizeItems, bind, Except.bind, hi, hr]

theorem normalizeEntries_of_agrees : ∀ (entries : List (PlainValue × PlainValue))
    {trees : List (PlainValue × PlainValue)}, NormalEntries entries → UnmarkedEntries entries →
      AgreesEntries (treesOfEntries entries) trees → normalizeEntries trees = .ok entries
  | [], _, _, _, h => by rw [show _ = _ from h]; rfl
  | (key, value) :: rest, _, hn, hm, h => by
    obtain ⟨⟨k, rfl⟩, hv, hrest⟩ := hn
    obtain ⟨form, t, ts, rfl, ht, hts⟩ := h
    have hv := normalize_of_agrees value hv hm.1 ht
    have hr := normalizeEntries_of_agrees rest hrest hm.2 hts
    rw [normalizeEntries, show (Yaml.Tree.text k TextForm.plain : PlainValue).keyText = k from rfl,
      keyName_text]
    simp only [bind, Except.bind, hv, hr]

end

/-! ## Controls -/

/-- Whether no formula in a control begins with the mark. -/
structure FreeOfMarks (c : Control) : Prop where
  properties : Property.UnmarkedEntries c.properties
  extras : ∀ e ∈ c.extras, Unmarked e.2

variable {c : Control}

/-- A control is written with its keys as they came. -/
theorem nodeKeys_eq (hw : c.WellFormed) : c.nodeKeys = c.keyOrder := by
  rw [nodeKeys_of_isRecorded hw.isRecorded, if_neg fun hno => hno.2 (hw.properties hno.1),
    List.append_nil]

theorem toTree_eq (hw : c.WellFormed) :
    c.toTree = .map (c.keyOrder.map fun k => (.text k .plain, c.part k)) := by
  rw [toTree_of_nodup (nodup_nodeKeys hw.isRecorded hw.keys), nodeKeys_eq hw]

section Parts

variable {ks : List Text} {trees : List (PlainValue × PlainValue)}

theorem keys_of_agrees (h : AgreesEntries (ks.map fun k => (.text k .plain, c.part k)) trees) :
    trees.map (·.1.keyText) = ks := by
  induction ks generalizing trees with
  | nil => rw [show trees = [] from h]; rfl
  | cons k ks ih =>
    obtain ⟨form, t, ts, rfl, -, hts⟩ := h
    rw [List.map_cons, ih hts]
    rfl

/-- What stands under a key agrees with what was written there. -/
theorem lookup_of_agrees (h : AgreesEntries (ks.map fun k => (.text k .plain, c.part k)) trees)
    {key : Text} (hk : key ∈ ks) :
    ∃ t, Yaml.Tree.lookup trees key = some t ∧ Agrees (c.part key) t := by
  induction ks generalizing trees with
  | nil => cases hk
  | cons k ks ih =>
    obtain ⟨form, t, ts, rfl, ht, hts⟩ := h
    by_cases he : k = key
    · subst he
      exact ⟨t, if_pos rfl, ht⟩
    · obtain ⟨u, hu, hau⟩ := ih hts ((List.mem_cons.1 hk).resolve_left fun h => he h.symm)
      exact ⟨u, (if_neg he).trans hu, hau⟩

theorem lookup_of_not_mem (h : AgreesEntries (ks.map fun k => (.text k .plain, c.part k)) trees)
    {key : Text} (hk : key ∉ ks) : Yaml.Tree.lookup trees key = none := by
  induction ks generalizing trees with
  | nil => rw [show trees = [] from h]; rfl
  | cons k ks ih =>
    obtain ⟨form, t, ts, rfl, -, hts⟩ := h
    simp only [List.mem_cons, not_or] at hk
    exact (if_neg fun he => hk.1 he.symm).trans (ih hts hk.2)

/-- The further part under a key, or nothing. -/
def extra (c : Control) (k : Text) : PlainValue := (c.extras.get? k).getD .null

/-- What is no type and no properties is read as the further parts. -/
theorem extrasOf_of_agrees (h : AgreesEntries (ks.map fun k => (.text k .plain, c.part k)) trees)
    (hn : ∀ k ∈ ks, isFurtherKey k = true → Normal (c.extra k) ∧ Unmarked (c.extra k)) :
    extrasOf trees = .ok ((ks.filter isFurtherKey).map fun k => (k, c.extra k)) := by
  induction ks generalizing trees with
  | nil => rw [show trees = [] from h]; rfl
  | cons k ks ih =>
    obtain ⟨form, t, ts, rfl, ht, hts⟩ := h
    have hrest := ih hts fun k hk => hn k (List.mem_cons_of_mem _ hk)
    have hown : isOwnKey (.text k form) = !isFurtherKey k := by
      simp [isOwnKey, isFurtherKey]
    rw [extrasOf, show (Yaml.Tree.text k TextForm.plain : PlainValue).keyText = k from rfl, hown]
    by_cases hk : isFurtherKey k = true
    · obtain ⟨hnormal, hclear⟩ := hn k List.mem_cons_self hk
      have hpart : c.part k = treeOfExtra (c.extra k) := by
        simp only [isFurtherKey, Bool.and_eq_true, decide_eq_true_eq] at hk
        rw [part, if_neg hk.1, if_neg hk.2, extra]
      rw [hpart] at ht
      rw [List.filter_cons_of_pos hk, hk, keyName_text]
      simp only [Bool.not_true, Bool.false_eq_true, if_false, bind, Except.bind,
        normalize_of_agrees _ hnormal hclear ht, hrest]
      rfl
    · rw [List.filter_cons_of_neg hk, Bool.eq_false_iff.2 hk]
      exact hrest

end Parts

theorem extras_eq (hw : c.WellFormed) :
    (c.keyOrder.filter isFurtherKey).map (fun k => (k, c.extra k)) = c.extras := by
  have hnodup : c.extras.keys.Nodup := hw.extras ▸ hw.keys.filter _
  have hself : ∀ e ∈ c.extras, (e.1, c.extra e.1) = e := fun e he => by
    rw [extra, Table.get?_of_mem hnodup he]
    rfl
  rw [← hw.extras, Table.keys, List.map_map]
  exact (List.map_congr_left hself).trans (List.map_id c.extras)

theorem extra_of_mem (hw : c.WellFormed) (hm : c.FreeOfMarks) {k : Text} (hk : k ∈ c.keyOrder)
    (hf : isFurtherKey k = true) : Normal (c.extra k) ∧ Unmarked (c.extra k) := by
  have hmem : (k, c.extra k) ∈ c.extras := by
    rw [← extras_eq hw]
    exact List.mem_map_of_mem (f := fun k => (k, c.extra k)) (List.mem_filter.2 ⟨hk, hf⟩)
  exact ⟨hw.normal _ hmem, hm.extras _ hmem⟩

theorem typeOf_of_agrees (hw : c.WellFormed) (name : Text) {tree : PlainValue}
    (h : Agrees (c.part typeKey) tree) : typeOf name tree = .ok c.typeTag := by
  have hhead : c.typeTag.head? ≠ some formulaMark := fun he => by
    rw [← hw.unwrapped] at he
    exact absurd (Text.head_trim he) (by decide)
  obtain ⟨s, form, rfl, hs⟩ := h
  rw [eq_of_agrees hhead hs, typeOf, hw.nonblank]
  rfl

theorem propertiesOf_of_agrees (hw : c.WellFormed) (hm : c.FreeOfMarks) (name : Text)
    {tree : PlainValue} (h : Agrees (c.part propertiesKey) tree) :
    propertiesOf name (some tree) = .ok c.properties := by
  obtain ⟨trees, rfl, hs⟩ := h
  rw [propertiesOf, classifyEntries_of_agrees c.properties name hw.values hm.properties hs]
  exact congrArg Except.ok (Table.ofEntries_of_nodup hw.distinct)

/-- A control is found again in a tree that agrees with its own. -/
theorem control_of_agrees (hw : c.WellFormed) (hm : c.FreeOfMarks) (name : Text) {tree : PlainValue}
    (h : Agrees c.toTree tree) : Control.ofTree name tree = .ok c := by
  rw [toTree_eq hw] at h
  obtain ⟨trees, rfl, hs⟩ := h
  obtain ⟨t, ht, hat⟩ := lookup_of_agrees hs hw.typed
  have hproperties : propertiesOf name (Yaml.Tree.lookup trees propertiesKey) = .ok c.properties := by
    by_cases hk : propertiesKey ∈ c.keyOrder
    · obtain ⟨p, hp, hap⟩ := lookup_of_agrees hs hk
      rw [hp]
      exact propertiesOf_of_agrees hw hm name hap
    · rw [lookup_of_not_mem hs hk, hw.properties hk]
      rfl
  have hextras := extrasOf_of_agrees hs fun k hk hf => extra_of_mem hw hm hk hf
  have hnodup : c.extras.keys.Nodup := hw.extras ▸ hw.keys.filter _
  rw [extras_eq hw] at hextras
  rw [Control.ofTree, ofEntries, ht]
  simp only [bind, Except.bind, typeOf_of_agrees hw name hat, hproperties, hextras, hw.unwrapped,
    Table.ofEntries_of_nodup hnodup, keys_of_agrees hs]

end Control

namespace Document

variable {d : Document}

/-- Whether no formula in a document begins with the mark. -/
def FreeOfMarks (d : Document) : Prop := ∀ e ∈ d.controls, e.2.FreeOfMarks

/-- The tree of a declaration. -/
def declaration (e : Text × Control) : PlainValue × PlainValue := (.text e.1 .plain, e.2.toTree)

/-- Declarations are read one after the other as the controls that they declare. -/
theorem controlsOf_of_agrees {known controls : Table Control}
    {entries : List (PlainValue × PlainValue)} (hn : (known ++ controls).keys.Nodup)
    (hw : ∀ e ∈ controls, e.2.WellFormed) (hm : ∀ e ∈ controls, e.2.FreeOfMarks)
    (h : AgreesEntries (controls.map declaration) entries) :
    controlsOf known entries = .ok (known ++ controls) := by
  induction controls generalizing known entries with
  | nil =>
    rw [show entries = [] from h, List.append_nil]
    rfl
  | cons e controls ih =>
    obtain ⟨name, c⟩ := e
    obtain ⟨form, t, ts, rfl, ht, hts⟩ := h
    have happ : known ++ (name, c) :: controls = (known ++ [(name, c)]) ++ controls := by simp
    have hnew : known.hasKey name = false := by
      rw [Table.hasKey, Bool.eq_false_iff, ne_eq, Table.get?_isSome_iff]
      intro hk
      rw [Table.keys, List.map_append, List.nodup_append] at hn
      exact hn.2.2 name hk name List.mem_cons_self rfl
    have hc := Control.control_of_agrees (hw _ List.mem_cons_self) (hm _ List.mem_cons_self) name ht
    have hn' : ((known ++ [(name, c)]) ++ controls).keys.Nodup := happ ▸ hn
    have hrest := ih hn'
      (fun e he => hw e (List.mem_cons_of_mem _ he)) (fun e he => hm e (List.mem_cons_of_mem _ he)) hts
    rw [controlsOf, show (Yaml.Tree.text name TextForm.plain : PlainValue).keyText = name from rfl,
      keyName_text, happ]
    simp only [bind, Except.bind, hnew, Bool.false_eq_true, if_false, hc, hrest]

/-- Items with one declaration each. -/
theorem declarations_of_agrees {controls : Table Control} {trees : List PlainValue}
    (h : AgreesItems ((controls.map declaration).map fun e => .map [e]) trees) :
    ∃ entries, declarations trees = .ok entries
      ∧ AgreesEntries (controls.map declaration) entries := by
  induction controls generalizing trees with
  | nil => exact ⟨[], by rw [show trees = [] from h]; rfl, rfl⟩
  | cons e controls ih =>
    obtain ⟨t, ts, rfl, ⟨es, rfl, form, v, r, rfl, hv, hr⟩, hts⟩ := h
    obtain rfl : r = [] := hr
    obtain ⟨entries, hentries, hagrees⟩ := ih hts
    refine ⟨(.text e.1 form, v) :: entries, ?_, form, v, entries, rfl, hv, hagrees⟩
    simp only [declarations, bind, Except.bind, hentries]
    rfl

theorem ofDeclarations_of_agrees (hw : d.WellFormed) (hm : d.FreeOfMarks)
    {entries : List (PlainValue × PlainValue)}
    (h : AgreesEntries (d.controls.map declaration) entries) (asSequence : Bool) :
    ofDeclarations asSequence entries = .ok ⟨d.controls, asSequence⟩ := by
  have hne : entries.isEmpty = false := by
    obtain ⟨e, es, hes⟩ := List.exists_cons_of_ne_nil hw.nonempty
    rw [hes] at h
    obtain ⟨form, t, ts, rfl, -⟩ := h
    rfl
  rw [ofDeclarations, hne, if_neg (by simp),
    controlsOf_of_agrees (show (Table.keys (([] : Table Control) ++ d.controls)).Nodup from
      hw.distinct) hw.controls hm h]
  rfl

/-- A document is found again in a tree that agrees with its own. -/
theorem document_of_agrees (hw : d.WellFormed) (hm : d.FreeOfMarks) {tree : PlainValue}
    (h : Agrees d.toTree tree) : Document.ofTree tree = .ok d := by
  obtain ⟨controls, asSequence⟩ := d
  cases asSequence with
  | true =>
    obtain ⟨trees, rfl, hs⟩ := h
    obtain ⟨entries, hentries, hagrees⟩ := declarations_of_agrees hs
    rw [Document.ofTree]
    simp only [bind, Except.bind, hentries, ofDeclarations_of_agrees hw hm hagrees]
  | false =>
    obtain ⟨trees, rfl, hs⟩ := h
    exact ofDeclarations_of_agrees hw hm hs false

end Document

end ModernControls
