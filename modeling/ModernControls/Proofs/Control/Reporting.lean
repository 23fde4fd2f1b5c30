import ModernControls.Control.Scan
import ModernControls.Proofs.Control.Ordinary
import ModernControls.Proofs.Formula.Returning

/-!
# Documents and reports

A text whose values exist declares a document, or there is a report on why it does not. The integers
of the document can be written, so it has a text if the quoted texts on the lines that are written
name values that exist.

Results:
- `Document.parse_ends`: what the reading of a text ends with;
- `Document.render_ends`: what the writing of a document ends with.
-/

namespace ModernControls

open Yaml

/-- Whether a conversion that fails for an error has a log that says so. -/
def Control.Error.IsLogged : Control.Error → Prop
  | .broken _ => False
  | .unsupportedValue _ => False
  | _ => True

/-! ## Values -/

theorem keyName_ends {key : PlainValue} (h : key.isShort = true) :
    Ends Control.Error.IsLogged (keyName key) fun _ => True := by
  have hlong : key.isLong = false := by
    cases key with
    | int n => exact Bool.eq_false_of_not_eq_true' h
    | _ => rfl
  rw [keyName, Yaml.Tree.keyText?, hlong]
  exact trivial

namespace Property

mutual

theorem classify_ends : ∀ (value : PlainValue) (path : Text), value.isShort = true →
    Ends Control.Error.IsLogged (classify path value) HasShortIntegers
  | .null, _, _ => trivial
  | .bool _, _, _ => trivial
  | .int _, _, h => Bool.eq_false_of_not_eq_true' h
  | .float _, _, _ => trivial
  | .text t form, _, _ => by
    show (classifyText t form).HasShortIntegers
    rw [classifyText]
    split <;> trivial
  | .map entries, path, h => by
    refine Ends.map (Ends.mono (classifyEntries_ends entries path h) fun es hes => ?_)
    exact hasShortIntegersEntries_iff.2 fun e he =>
      hasShortIntegersEntries_iff.1 hes e (Table.of_mem_ofEntries he)
  | .bytes _, _, _ => trivial
  | .moment _, _, _ => trivial
  | .list _, _, _ => trivial
  | .tuple _, _, _ => trivial
  | .set _, _, _ => trivial
  | .foreign _, _, _ => trivial

theorem classifyEntries_ends : ∀ (entries : List (PlainValue × PlainValue)) (path : Text),
    Yaml.Tree.areShortEntries entries = true →
      Ends Control.Error.IsLogged (classifyEntries path entries) HasShortIntegersEntries
  | [], _, _ => trivial
  | (key, value) :: rest, path, h => by
    rw [Yaml.Tree.areShortEntries, Bool.and_eq_true, Bool.and_eq_true] at h
    exact (keyName_ends h.1.1).bind fun name _ => (classify_ends value _ h.1.2).bind fun _ hp =>
      (classifyEntries_ends rest path h.2).bind fun _ hes => ⟨hp, hes⟩

end

end Property

namespace Control

/-! ## Further parts -/

/-- Whether the integers in a further part can be written. -/
def IsShortPart (value : PlainValue) : Prop := (treeOfExtra value).isShort = true

theorem areShort_treesOfItems {items : List PlainValue} :
    Yaml.Tree.areShort (treesOfItems items) = true ↔ ∀ item ∈ items, IsShortPart item := by
  induction items with
  | nil => simp [treesOfItems, Yaml.Tree.areShort]
  | cons item rest ih => simp [treesOfItems, Yaml.Tree.areShort, ih, IsShortPart]

theorem areShort_treesOfEntries {entries : List (PlainValue × PlainValue)} :
    Yaml.Tree.areShortEntries (treesOfEntries entries) = true ↔
      ∀ e ∈ entries, e.1.isShort = true ∧ IsShortPart e.2 := by
  induction entries with
  | nil => simp [treesOfEntries, Yaml.Tree.areShortEntries]
  | cons entry rest ih =>
    obtain ⟨key, value⟩ := entry
    simp [treesOfEntries, Yaml.Tree.areShortEntries, ih, IsShortPart, and_assoc]

theorem isShortPart_ofEntries {entries : List (PlainValue × PlainValue)}
    (h : ∀ e ∈ entries, e.1.isShort = true ∧ IsShortPart e.2) :
    IsShortPart (Yaml.Tree.ofEntries entries) :=
  areShort_treesOfEntries.2 <| Yaml.Tree.forall_foldl_insertEntry (·.isShort = true) IsShortPart
    (List.forall_mem_nil _) h

mutual

theorem normalize_ends : ∀ value : PlainValue, value.isShort = true → IsRead value →
    Ends Error.IsLogged (normalize value) IsShortPart
  | .null, _, _ => rfl
  | .bool _, _, _ => rfl
  | .int _, h, _ => h
  | .float _, _, _ => rfl
  | .bytes _, _, _ => rfl
  | .moment _, _, _ => rfl
  | .tuple _, h, _ => h
  | .set _, h, _ => h
  | .foreign _, _, hr => hr.elim
  | .text t form, _, _ => by
    show IsShortPart _
    split
    · exact rfl
    · exact Property.isShort_treeOfText _ _
  | .list items, h, hr =>
    Ends.map (Ends.mono (normalizeItems_ends items h hr) fun _ => areShort_treesOfItems.2)
  | .map entries, h, hr =>
    Ends.map (Ends.mono (normalizeEntries_ends entries h hr) fun _ => isShortPart_ofEntries)

theorem normalizeItems_ends : ∀ items : List PlainValue, Yaml.Tree.areShort items = true →
    Yaml.Tree.GenuineItems (fun _ => False) items →
      Ends Error.IsLogged (normalizeItems items) fun is => ∀ i ∈ is, IsShortPart i
  | [], _, _ => List.forall_mem_nil _
  | item :: rest, h, hr => by
    rw [Yaml.Tree.areShort, Bool.and_eq_true] at h
    exact (normalize_ends item h.1 hr.1).bind fun _ hi =>
      (normalizeItems_ends rest h.2 hr.2).bind fun _ his => List.forall_mem_cons.2 ⟨hi, his⟩

theorem normalizeEntries_ends : ∀ entries : List (PlainValue × PlainValue),
    Yaml.Tree.areShortEntries entries = true → Yaml.Tree.GenuineEntries (fun _ => False) entries →
      Ends Error.IsLogged (normalizeEntries entries) fun es =>
        ∀ e ∈ es, e.1.isShort = true ∧ IsShortPart e.2
  | [], _, _ => List.forall_mem_nil _
  | (key, value) :: rest, h, hr => by
    rw [Yaml.Tree.areShortEntries, Bool.and_eq_true, Bool.and_eq_true] at h
    exact (keyName_ends h.1.1).bind fun _ _ => (normalize_ends value h.1.2 hr.2.1).bind fun _ hv =>
      (normalizeEntries_ends rest h.2 hr.2.2).bind fun _ hes =>
        List.forall_mem_cons.2 ⟨⟨rfl, hv⟩, hes⟩

end

/-! ## Controls -/

/-- Whether the integers in a control can be written. -/
structure IsShort (c : Control) : Prop where
  properties : Property.HasShortIntegersEntries c.properties
  extras : ∀ e ∈ c.extras, IsShortPart e.2

theorem forall_entries {entries : List (PlainValue × PlainValue)}
    (hs : Yaml.Tree.areShortEntries entries = true)
    (hr : Yaml.Tree.GenuineEntries (fun _ => False) entries) :
    ∀ e ∈ entries, (e.1.isShort = true ∧ e.2.isShort = true) ∧ IsRead e.2 := fun e he =>
  ⟨Yaml.Tree.areShortEntries_iff.1 hs e he, (Yaml.Tree.genuineEntries_iff.1 hr e he).2⟩

theorem extrasOf_ends {entries : List (PlainValue × PlainValue)}
    (h : ∀ e ∈ entries, (e.1.isShort = true ∧ e.2.isShort = true) ∧ IsRead e.2) :
    Ends Error.IsLogged (extrasOf entries) fun es => ∀ e ∈ es, IsShortPart e.2 := by
  induction entries with
  | nil => exact List.forall_mem_nil _
  | cons entry rest ih =>
    obtain ⟨hfirst, hrest⟩ := List.forall_mem_cons.1 h
    obtain ⟨key, value⟩ := entry
    rw [extrasOf]
    split
    · exact ih hrest
    · exact (keyName_ends hfirst.1.1).bind fun _ _ =>
        (normalize_ends value hfirst.1.2 hfirst.2).bind fun _ hv =>
          (ih hrest).bind fun _ hes => List.forall_mem_cons.2 ⟨hv, hes⟩

theorem typeOf_ends (name : Text) (value : PlainValue) :
    Ends Error.IsLogged (typeOf name value) fun _ => True := by
  cases value with
  | text tag form =>
    rw [typeOf]
    split <;> exact trivial
  | _ => exact trivial

theorem propertiesOf_ends (name : Text) {found : Option PlainValue}
    (h : ∀ value ∈ found, value.isShort = true) :
    Ends Error.IsLogged (propertiesOf name found) Property.HasShortIntegersEntries := by
  cases found with
  | none => exact trivial
  | some value =>
    cases value with
    | null => exact trivial
    | map entries =>
      refine Ends.map (Ends.mono (Property.classifyEntries_ends entries name (h _ rfl)) ?_)
      exact fun es hes => Property.hasShortIntegersEntries_iff.2 fun e he =>
        Property.hasShortIntegersEntries_iff.1 hes e (Table.of_mem_ofEntries he)
    | _ => exact trivial

theorem ofEntries_ends (name : Text) {entries : List (PlainValue × PlainValue)}
    (h : ∀ e ∈ entries, (e.1.isShort = true ∧ e.2.isShort = true) ∧ IsRead e.2) :
    Ends Error.IsLogged (ofEntries name entries) IsShort := by
  have hproperties : ∀ value ∈ Yaml.Tree.lookup entries propertiesKey, value.isShort = true := by
    intro value hv
    obtain ⟨e, he, -, rfl⟩ := mem_of_lookup hv
    exact (h e he).1.2
  rw [ofEntries]
  split
  · exact trivial
  · next value _ =>
    refine (typeOf_ends name value).bind fun tag _ => ?_
    refine (propertiesOf_ends name hproperties).bind fun properties hp => ?_
    refine (extrasOf_ends h).bind fun extras he => ⟨hp, fun e hmem => ?_⟩
    exact he e (Table.of_mem_ofEntries hmem)

theorem ofTree_ends (name : Text) {tree : PlainValue} (hs : tree.isShort = true)
    (hr : IsRead tree) : Ends Error.IsLogged (ofTree name tree) IsShort := by
  cases tree with
  | map entries => exact ofEntries_ends name (forall_entries hs hr)
  | _ => exact trivial

end Control

/-! ## Documents -/

namespace Document

/-- Whether the integers in a document can be written. -/
def IsShort (d : Document) : Prop := ∀ e ∈ d.controls, e.2.IsShort

theorem declarations_ends {items : List PlainValue}
    (h : ∀ item ∈ items, item.isShort = true ∧ IsRead item) :
    Ends Control.Error.IsLogged (declarations items) fun entries =>
      ∀ e ∈ entries, (e.1.isShort = true ∧ e.2.isShort = true) ∧ IsRead e.2 := by
  induction items with
  | nil => exact List.forall_mem_nil _
  | cons item rest ih =>
    obtain ⟨hfirst, hrest⟩ := List.forall_mem_cons.1 h
    rw [declarations.eq_def]
    split
    · next heq => cases heq
    · next entry rest' heq =>
      obtain ⟨rfl, rfl⟩ := List.cons.inj heq
      have hentry := List.forall_mem_singleton.1 (Control.forall_entries hfirst.1 hfirst.2)
      exact (ih hrest).bind fun _ he => List.forall_mem_cons.2 ⟨hentry, he⟩
    · exact trivial

theorem controlsOf_ends {known : Table Control} {entries : List (PlainValue × PlainValue)}
    (hknown : ∀ e ∈ known, e.2.IsShort)
    (h : ∀ e ∈ entries, (e.1.isShort = true ∧ e.2.isShort = true) ∧ IsRead e.2) :
    Ends Control.Error.IsLogged (controlsOf known entries) fun controls =>
      ∀ e ∈ controls, e.2.IsShort := by
  induction entries generalizing known with
  | nil => exact hknown
  | cons entry rest ih =>
    obtain ⟨hfirst, hrest⟩ := List.forall_mem_cons.1 h
    obtain ⟨key, body⟩ := entry
    rw [controlsOf]
    refine (keyName_ends hfirst.1.1).bind fun name _ => ?_
    split
    · exact trivial
    · refine (Control.ofTree_ends name hfirst.1.2 hfirst.2).bind fun control hc => ih ?_ hrest
      exact List.forall_mem_append.2 ⟨hknown, List.forall_mem_singleton.2 hc⟩

theorem ofDeclarations_ends (asSequence : Bool) {entries : List (PlainValue × PlainValue)}
    (h : ∀ e ∈ entries, (e.1.isShort = true ∧ e.2.isShort = true) ∧ IsRead e.2) :
    Ends Control.Error.IsLogged (ofDeclarations asSequence entries) IsShort := by
  rw [ofDeclarations]
  split
  · exact trivial
  · exact Ends.map (controlsOf_ends (List.forall_mem_nil _) h)

theorem ofTree_ends {tree : PlainValue} (hs : tree.isShort = true) (hr : IsRead tree) :
    Ends Control.Error.IsLogged (ofTree tree) IsShort := by
  cases tree with
  | list items =>
    refine (declarations_ends fun item hi => ?_).bind fun entries he => ofDeclarations_ends true he
    exact ⟨Yaml.Tree.areShort_iff.1 hs item hi, Yaml.Tree.genuineItems_iff.1 hr item hi⟩
  | map entries => exact ofDeclarations_ends false (Control.forall_entries hs hr)
  | _ => exact trivial

/-- Whether all values exist that a text names: those in the quoted texts on its lines, and those of
the text with its formulas between quotation marks. -/
structure ValuesExist (text : Text) : Prop where
  quotes : Formula.QuotesExist Formula.openedValue? text.unifyBreaks
  tree : ∀ escaped ∈ (Formula.escape text).toOption, Yaml.ValuesExist .reduced escaped

instance (text : Text) : Decidable (ValuesExist text) :=
  decidable_of_iff (Formula.QuotesExist Formula.openedValue? text.unifyBreaks ∧
      ∀ escaped ∈ (Formula.escape text).toOption, Yaml.ValuesExist .reduced escaped)
    ⟨fun h => ⟨h.1, h.2⟩, fun h => ⟨h.quotes, h.tree⟩⟩

theorem treeOf_ends {text : Text} (h : ValuesExist text) :
    Ends Control.Error.IsLogged (treeOf text) fun tree => tree.isShort = true ∧ IsRead tree := by
  obtain ⟨escaped, he⟩ := Formula.exists_escape h.quotes
  have htree := Yaml.Tree.ofText_ends (h.tree escaped (he ▸ rfl)) Foreign
  rw [treeOf, he]
  dsimp only
  split
  · next tree ht => exact ⟨htree.of_ok ht, Yaml.Tree.genuine_ofText ht⟩
  · next b hb => exact htree.of_error hb
  · exact trivial

/-- A text whose values exist declares a document whose integers can be written, or there is a
report. -/
theorem parse_ends {text : Text} (h : ValuesExist text) :
    Ends Control.Error.IsLogged (parse text) IsShort :=
  (treeOf_ends h).bind fun _ ht => ofTree_ends ht.1 ht.2

/-- Whether a text looks like a document is always told. -/
theorem exists_isDocument {text : Text} (h : ValuesExist text) :
    ∃ answer, isDocument text = .ok answer := by
  rw [isDocument, check]
  split
  · exact ⟨_, rfl⟩
  · split
    · exact ⟨_, rfl⟩
    · next hb => exact ((treeOf_ends h).of_error hb).elim
    · exact ⟨_, rfl⟩
    · exact ⟨_, rfl⟩

end Document

/-! ## Writing -/

namespace Control

theorem isShort_part {c : Control} (h : c.IsShort) (key : Text) :
    (c.part key).isShort = true := by
  rw [part]
  split
  · exact rfl
  · split
    · exact (Property.areShort_toTreeEntries _).2 h.properties
    · cases hg : Table.get? c.extras key with
      | none => exact rfl
      | some value => exact h.extras _ (Table.mem_of_get? hg)

theorem isShort_toTree {c : Control} (h : c.IsShort) : c.toTree.isShort = true := by
  refine Yaml.Tree.areShortEntries_iff.2 fun e he => ?_
  obtain ⟨⟨key, value⟩, hmem, rfl⟩ := List.mem_map.1 he
  obtain ⟨k, -, hk⟩ := List.mem_map.1 (Table.of_mem_ofEntries hmem)
  obtain ⟨rfl, rfl⟩ := Prod.mk.inj hk
  exact ⟨rfl, isShort_part h k⟩

end Control

namespace Document

theorem isShort_toTree {d : Document} (h : d.IsShort) : d.toTree.isShort = true := by
  obtain ⟨controls, asSequence⟩ := d
  have hentry : ∀ e ∈ controls,
      (declaration e).1.isShort = true ∧ (declaration e).2.isShort = true :=
    fun e he => ⟨rfl, Control.isShort_toTree (h e he)⟩
  cases asSequence with
  | true =>
    refine Yaml.Tree.areShort_iff.2 fun item hi => ?_
    obtain ⟨entry, hentries, rfl⟩ := List.mem_map.1 hi
    obtain ⟨e, he, rfl⟩ := List.mem_map.1 hentries
    exact Yaml.Tree.areShortEntries_iff.2 (List.forall_mem_singleton.2 (hentry e he))
  | false =>
    refine Yaml.Tree.areShortEntries_iff.2 fun entry hentries => ?_
    obtain ⟨e, he, rfl⟩ := List.mem_map.1 hentries
    exact hentry e he

/-- A document whose integers can be written has a text, or there is a report, if the quoted texts
on the lines that are written name values that exist. -/
theorem render_ends {d : Document} (h : d.IsShort)
    (hq : ∀ written, d.toTree.toText = .ok written →
      Formula.QuotesExist Formula.quotedValue? written) :
    Ends Control.Error.IsLogged (render d) fun _ => True := by
  have htext := Yaml.Tree.toText_ends (isShort_toTree h)
  rw [render, textOf]
  split
  · exact trivial
  · next hl => exact htext.of_error hl
  · next written hw =>
    obtain ⟨unescaped, hu⟩ := Formula.exists_unescape (hq written hw)
    rw [hu]
    exact trivial

end Document

end ModernControls
