import ModernControls.Proofs.Control.Keys
import ModernControls.Proofs.Control.Reading
import ModernControls.Proofs.Conversion.Additions
import ModernControls.Proofs.Conversion.Lookups

/-!
# The shape of a converted control

A conversion changes the type of a control and its properties, and leaves the rest in its place. The
modern control stands under the same name, in a document of the same form, with the same further
parts, and is written with the same keys in the same order. One key may be new: a control that was
written without properties and has some in the end gets them behind all else.

**Keys of a control (`Control.HasKeysOf`).** What the keys of the entries that a control is read
from say about it. Those of the entries are the recorded ones (`Control.IsRecorded`). This does not
depend on its type and its properties, so it goes over to the modern control.

**Parts (`Control.HasParts`).** What a control is written as: its type, its properties and its
further parts, each under its key.

Results:
- `Control.hasKeysOf_of_read`, `Document.single_of_parse`: what a control is read from;
- `Control.exists_parts`: what a control is written as, if no key is repeated;
- `Conversion.shape_kept`: the law for conversions.
-/
namespace ModernControls

namespace Control

variable {c : Control} {entries : List (PlainValue × PlainValue)}

/-- Whether a control has the keys of entries: these are recorded, in their order, and no two further
parts have the same key. -/
structure HasKeysOf (c : Control) (entries : List (PlainValue × PlainValue)) : Prop
    extends IsRecorded c where
  order : c.keyOrder = entries.map fun e => e.1.keyText
  distinct : c.extras.keys.Nodup

/-- Whether parts are those of a control: its type, its properties if they have a place, and its
further parts. -/
structure HasParts (c : Control) (parts : Table PlainValue) : Prop where
  type : parts.get? typeKey = some (treeOfType c.typeTag)
  properties : propertiesKey ∈ parts.keys →
    parts.get? propertiesKey = some (.map (Property.toTreeEntries c.properties))
  extras : ∀ e ∈ c.extras, parts.get? e.1 = some (treeOfExtra e.2)

/-! ## Keys that are read -/

/-- Nothing stands under the key of the properties just if no entry has this key; no key that is no
text becomes it. -/
theorem lookup_propertiesKey : Yaml.Tree.lookup entries propertiesKey = none
    ↔ propertiesKey ∉ entries.map fun e => e.1.keyText := by
  induction entries with
  | nil => simp [Yaml.Tree.lookup]
  | cons e rest ih =>
    obtain ⟨key, value⟩ := e
    rw [List.map_cons, List.mem_cons, not_or, ← ih]
    by_cases hk : ∃ t form, key = .text t form
    · obtain ⟨t, form, rfl⟩ := hk
      have htext : (Yaml.Tree.text t form : PlainValue).keyText = t := rfl
      rw [Yaml.Tree.lookup, htext]
      by_cases ht : t = propertiesKey
      · simp [ht]
      · simp [ht, Ne.symm ht]
    · have hne := (keyText_ne_own fun t form he => hk ⟨t, form, he⟩).2
      have hrest : Yaml.Tree.lookup ((key, value) :: rest) propertiesKey
          = Yaml.Tree.lookup rest propertiesKey := by
        cases key with
        | text t form => exact absurd ⟨t, form, rfl⟩ hk
        | _ => rfl
      rw [hrest]
      exact ⟨fun h => ⟨Ne.symm hne, h⟩, fun h => h.2⟩

/-- A control has the keys that it is read from, and without one for them no properties. -/
theorem hasKeysOf_of_read {name : Text} (hr : Yaml.Tree.GenuineEntries (fun _ => False) entries)
    (h : ofEntries name entries = .ok c) :
    c.HasKeysOf entries ∧ (propertiesKey ∉ c.keyOrder → c.properties = []) := by
  obtain ⟨value, tag, properties, extras, hvalue, hproperties, hextras, rfl⟩ := parts_of_ofEntries h
  refine ⟨⟨⟨mem_keyTexts_of_lookup hvalue, fun k => ?_⟩, rfl, Table.nodup_ofEntries extras⟩,
    properties_of_not_mem hproperties⟩
  have hkeys : k ∈ Table.keys (Table.ofEntries extras) ↔ k ∈ extras.map (·.1) := by
    rw [Table.ofEntries, Table.mem_keys_insertAll]
    simp [Table.keys]
  rw [hkeys, (extras_of_read hr hextras).1, List.mem_filter]

/-! ## Parts that are written -/

/-- If no key is repeated, a control is written as its parts, each under its key. -/
theorem exists_parts (h : c.HasKeysOf entries) (hn : c.nodeKeys.Nodup) :
    ∃ parts : Table PlainValue, c.toTree = .map (Yaml.Tree.ofTexts parts)
      ∧ parts.keys = c.nodeKeys ∧ c.HasParts parts := by
  have hkeys : Table.keys (c.nodeKeys.map fun key => (key, c.part key)) = c.nodeKeys := by
    rw [Table.keys, List.map_map]
    exact List.map_id _
  have hnodup : (Table.keys (c.nodeKeys.map fun key => (key, c.part key))).Nodup := by
    rwa [hkeys]
  have hpart : ∀ k ∈ c.nodeKeys,
      Table.get? (c.nodeKeys.map fun key => (key, c.part key)) k = some (c.part k) := fun k hk =>
    Table.get?_of_mem hnodup (List.mem_map_of_mem hk)
  refine ⟨c.nodeKeys.map fun key => (key, c.part key), ?_, hkeys, ?_⟩
  · rw [toTree_of_nodup hn, Yaml.Tree.ofTexts, List.map_map]
    rfl
  · constructor
    · exact hpart typeKey ((mem_nodeKeys c typeKey).2 (h.toIsRecorded.present h.typed))
    · intro hplace
      rw [hpart propertiesKey (hkeys ▸ hplace)]
      rfl
    · intro e he
      have hkey : e.1 ∈ c.extras.keys := List.mem_map_of_mem he
      obtain ⟨horder, hfurther⟩ := (h.extras e.1).1 hkey
      have hown : e.1 ≠ typeKey ∧ e.1 ≠ propertiesKey := by simpa [isFurtherKey] using hfurther
      rw [hpart e.1 ((mem_nodeKeys c e.1).2 (h.toIsRecorded.present horder)), part, if_neg hown.1,
        if_neg hown.2, Table.get?_of_mem h.distinct he]
      rfl

end Control

namespace Document

/-! ## Documents with one control -/

variable {name : Text} {c : Control} {asSequence : Bool}

theorem single_of_ofDeclarations {inSequence : Bool} {entries : List (PlainValue × PlainValue)}
    (h : ofDeclarations inSequence entries = .ok (.single name c asSequence)) :
    inSequence = asSequence ∧ ∃ key body, entries = [(key, body)]
      ∧ Control.ofTree name body = .ok c := by
  rw [ofDeclarations] at h
  split at h
  · cases h
  · obtain ⟨controls, hcontrols, heq⟩ := exists_of_map h
    obtain ⟨rfl, rfl⟩ := Document.mk.inj heq
    have hnone : (Table.keys ([] : Table Control)).Nodup := List.nodup_nil
    obtain ⟨-, hlength, hmem⟩ := controlsOf_spec hnone hcontrols
    obtain ⟨⟨key, body⟩, rfl⟩ := List.length_eq_one_iff.1
      (show entries.length = 1 by simpa using hlength.symm)
    refine ⟨rfl, key, body, rfl, ?_⟩
    rcases hmem (name, c) List.mem_cons_self with hno | ⟨d, hd, hc⟩
    · cases hno
    · obtain rfl := List.mem_singleton.1 hd
      exact hc

/-- A document with one control is read from a tree with one declaration. -/
theorem single_of_parse {t : Text} (h : parse t = .ok (.single name c asSequence)) :
    ∃ key entries, treeOf t = .ok (nest [(key, .map entries)] asSequence)
      ∧ Yaml.Tree.GenuineEntries (fun _ => False) entries
      ∧ Control.ofEntries name entries = .ok c := by
  obtain ⟨tree, htree, h⟩ := exists_of_bind h
  have hread : IsRead tree := isRead_of_treeOf htree
  rw [Document.ofTree.eq_def] at h
  split at h
  · obtain ⟨entries, hentries, hdeclared⟩ := exists_of_bind h
    obtain rfl := eq_of_declarations hentries
    obtain ⟨rfl, key, body, rfl, hc⟩ := single_of_ofDeclarations hdeclared
    obtain ⟨entries, rfl, hc⟩ := Control.exists_of_ofTree hc
    exact ⟨key, entries, htree, hread.1.2.1, hc⟩
  · obtain ⟨rfl, key, body, rfl, hc⟩ := single_of_ofDeclarations h
    obtain ⟨entries, rfl, hc⟩ := Control.exists_of_ofTree hc
    exact ⟨key, entries, htree, hread.2.1, hc⟩
  · cases h

end Document

namespace Conversion

variable {m : Mapping} {text : Text}

/-! ## Conversions -/

/-- Whether a control keeps the shape of one that was read from entries: it has the same further
parts and is written with the same keys, with that of the properties behind them if they had no
place and there are some. If the keys of the entries differ, it is written as its parts, each once
and in the place that it had. -/
structure KeepsShape (entries : List (PlainValue × PlainValue)) (control modern : Control) :
    Prop where
  extras : modern.extras = control.extras
  written : control.nodeKeys = entries.map fun e => e.1.keyText
  nodeKeys : modern.nodeKeys = control.nodeKeys
    ++ if Yaml.Tree.lookup entries propertiesKey = none ∧ modern.properties ≠ [] then
      [propertiesKey] else []
  parts : (entries.map fun e => e.1.keyText).Nodup → modern.nodeKeys.Nodup
    ∧ ∃ parts : Table PlainValue, modern.toTree = .map (Yaml.Tree.ofTexts parts)
      ∧ parts.keys = modern.nodeKeys ∧ modern.HasParts parts

/-- Another type and other properties keep the shape of a control. -/
theorem keepsShape {name : Text} {control : Control} {entries : List (PlainValue × PlainValue)}
    (hr : Yaml.Tree.GenuineEntries (fun _ => False) entries)
    (h : Control.ofEntries name entries = .ok control) (typeTag : Text) (properties : Properties) :
    KeepsShape entries control { control with typeTag := typeTag, properties := properties } := by
  obtain ⟨hkeys, hbare⟩ := Control.hasKeysOf_of_read hr h
  have hmodern : Control.HasKeysOf { control with typeTag := typeTag, properties := properties }
      entries :=
    { typed := hkeys.typed, extras := hkeys.extras, order := hkeys.order
      distinct := hkeys.distinct }
  have hwritten : control.nodeKeys = control.keyOrder := by
    rw [Control.nodeKeys_of_isRecorded hkeys.toIsRecorded, if_neg fun hno => hno.2 (hbare hno.1),
      List.append_nil]
  have hplace : Yaml.Tree.lookup entries propertiesKey = none
      ↔ propertiesKey ∉ control.keyOrder := by rw [Control.lookup_propertiesKey, hkeys.order]
  constructor
  · rfl
  · rw [hwritten, hkeys.order]
  · rw [Control.nodeKeys_of_isRecorded hmodern.toIsRecorded, hwritten]
    exact congrArg _ (if_congr (and_congr_left' hplace.symm) rfl rfl)
  · intro hn
    have hnodup := Control.nodup_nodeKeys hmodern.toIsRecorded (hkeys.order ▸ hn)
    exact ⟨hnodup, Control.exists_parts hmodern hnodup⟩

/-- What a conversion of a control finds and writes. -/
theorem outcome_of_convertControl {name : Text} {control : Control} {asSequence : Bool}
    {result : Converted} (h : (convertControl m name control asSequence).2 = .ok result) :
    (typeFor m control.typeTag).2 = .ok result.modernType
      ∧ result.document.render = .ok result.output := by
  rw [convertControl, outcome_andThen] at h
  obtain ⟨modernType, htype, h⟩ := exists_of_bind h
  rw [outcome_andThen] at h
  obtain ⟨mapped, -, h⟩ := exists_of_bind h
  rw [outcome_andThen] at h
  obtain ⟨properties, -, h⟩ := exists_of_bind h
  unfold written at h
  split at h
  · next output houtput =>
    obtain rfl := Except.ok.inj h
    exact ⟨htype, houtput⟩
  · cases h

/-- A conversion keeps the shape of a control. What it writes is a document of the same form with a
control of the same name. The type of this control is the one that the classic type stands for, its
further parts are those of the classic control, and so are the keys that it is written with, but
that of properties that had no place. -/
theorem shape_kept {c : Conversion} (h : convert m text = .ok c) :
    ∃ key entries name control asSequence modern note,
      Document.treeOf text = .ok (Document.nest [(key, .map entries)] asSequence)
        ∧ Document.parse text = .ok (.single name control asSequence)
        ∧ c.result.document = .single name modern asSequence
        ∧ c.result.document.render = .ok c.result.output
        ∧ m.resolve control.typeTag = some (modern.typeTag, note)
        ∧ KeepsShape entries control modern := by
  obtain ⟨name, control, asSequence, hparse, hcontrol⟩ := result_of_convert h
  obtain ⟨key, entries, htree, hread, hentries⟩ := Document.single_of_parse hparse
  obtain ⟨htype, hrender⟩ := outcome_of_convertControl hcontrol
  obtain ⟨note, hresolve⟩ := resolve_of_typeFor htype
  obtain ⟨-, properties, -, -, hdocument⟩ := result_of_convertControl hcontrol
  exact ⟨key, entries, name, control, asSequence, _, note, htree, hparse, hdocument, hrender,
    hresolve, keepsShape hread hentries c.result.modernType properties⟩

/-- A classic gallery without properties, between a further part and a child with a formula. -/
def galleryText : Text :=
  ("Gal:\n  Variant: Wide\n  Control: Gallery@2.15.0\n  Children:\n    - Inner:\n" ++
    "        Control: Label@2.5.1\n        OnSelect: =Back()\n").toList

theorem shape_kept_galleryText : ∃ c, convert Mapping.builtIn galleryText = .ok c
    ∧ ∃ key entries name control asSequence modern note,
      Document.treeOf galleryText = .ok (Document.nest [(key, .map entries)] asSequence)
        ∧ Document.parse galleryText = .ok (.single name control asSequence)
        ∧ c.result.document = .single name modern asSequence
        ∧ c.result.document.render = .ok c.result.output
        ∧ Mapping.builtIn.resolve control.typeTag = some (modern.typeTag, note)
        ∧ KeepsShape entries control modern := by
  have hsome : (convert Mapping.builtIn galleryText).toOption.isSome = true := by decide +kernel
  obtain ⟨c, hc⟩ := Option.isSome_iff_exists.1 hsome
  have h : convert Mapping.builtIn galleryText = .ok c := eq_ok_of_toOption hc
  exact ⟨c, h, shape_kept h⟩

end Conversion

end ModernControls
