import ModernControls.Conversion.Convert

/-!
# What a conversion looks up

Of a configuration, the conversion of a control asks for three things: the modern type for its
classic one, the targets of the properties of that type, and its default properties. Two
configurations that answer these alike convert the control alike, whatever else they hold.

**Same answers (`Mapping.SameLookups`).** The same modern type with the same words on how it was
found, or none; then the same target or none for every key, and the same defaults in the same order.

Results:
- `Mapping.resolve_eq`: the words on how a type was found tell how it was found;
- `Mapping.mapProperties_congr`: properties are mapped alike;
- `Conversion.convert_congr`: texts are converted alike.
-/
namespace ModernControls

namespace Mapping

/-- Whether two configurations answer alike all that is asked for a control of a type. -/
structure SameLookups (a b : Mapping) (classicType : Text) : Prop where
  types : (a.resolve classicType).map (fun found => (found.1, found.2.message))
    = (b.resolve classicType).map fun found => (found.1, found.2.message)
  targets : ∀ found, a.resolve classicType = some found → ∀ key,
    Table.get? (a.propertyTable found.1) key = Table.get? (b.propertyTable found.1) key
  defaults : ∀ found, a.resolve classicType = some found →
    a.defaultsFor found.1 = b.defaultsFor found.1

variable {a b : Mapping} {token : Text}

/-! ## Types -/

theorem note_of_resolve {target : Text} {note : Note} (h : a.resolve token = some (target, note)) :
    ∃ how, note = .typeFound how (TypeToken.unwrapped token) target := by
  simp only [resolve, Option.orElse_eq_orElse, Option.orElse_eq_or, Option.or_eq_some_iff,
    Option.map_eq_some_iff, Prod.mk.injEq] at h
  rcases h with ⟨_, _, rfl, rfl⟩ | ⟨_, ⟨_, _, rfl, rfl⟩ | ⟨_, ⟨_, _, rfl, rfl⟩ | ⟨_, _, _, rfl, rfl⟩⟩⟩
  · exact ⟨.exact, rfl⟩
  · exact ⟨.base, rfl⟩
  · exact ⟨.caseless, rfl⟩
  · exact ⟨.baseCaseless, rfl⟩

theorem how_of_message {how how' : TypeMatch} {target : Text}
    (h : (Note.typeFound how token target).message = (Note.typeFound how' token target).message) :
    how = how' := by
  have hwords : ∀ how, (Note.typeFound how token target).message
      = "Control type conversion".toList ++ how.text ++ ": ".toList ++ token ++ " -> ".toList
        ++ target := fun _ => rfl
  rw [hwords, hwords, List.append_cancel_right_eq, List.append_cancel_right_eq,
    List.append_cancel_right_eq, List.append_cancel_right_eq, List.append_cancel_left_eq] at h
  revert h
  cases how <;> cases how' <;> decide +kernel

/-- The words on how a type was found tell how it was found. -/
theorem resolve_eq (h : a.SameLookups b token) : a.resolve token = b.resolve token := by
  have htypes := h.types
  cases ha : a.resolve token with
  | none =>
    rw [ha] at htypes
    exact (Option.map_eq_none_iff.1 htypes.symm).symm
  | some found =>
    rw [ha] at htypes
    obtain ⟨⟨target, note'⟩, hb, hsame⟩ := Option.map_eq_some_iff.1 htypes.symm
    obtain ⟨rfl, hwords⟩ := Prod.mk.inj hsame
    obtain ⟨how, hnote⟩ := note_of_resolve ha
    obtain ⟨how', rfl⟩ := note_of_resolve hb
    rw [hnote] at hwords
    rw [hb, how_of_message hwords, ← hnote]

/-! ## Properties -/

theorem place_congr {table table' : Table (Option Text)}
    (h : ∀ key, Table.get? table key = Table.get? table' key) (done : Properties) (key : Text)
    (value : Property) : place table done key value = place table' done key value := by
  unfold place
  rw [h key]

theorem placeAll_congr {table table' : Table (Option Text)}
    (h : ∀ key, Table.get? table key = Table.get? table' key) (done : Properties)
    (classic : List (Text × Property)) :
    placeAll table done classic = placeAll table' done classic := by
  induction classic generalizing done with
  | nil => rfl
  | cons entry rest ih => simp only [placeAll, place_congr h, ih]

/-- Properties are mapped alike with the same targets and the same defaults. -/
theorem mapProperties_congr {modernType : Text}
    (ht : ∀ key, Table.get? (a.propertyTable modernType) key
      = Table.get? (b.propertyTable modernType) key)
    (hd : a.defaultsFor modernType = b.defaultsFor modernType) (classic : Properties) :
    a.mapProperties classic modernType = b.mapProperties classic modernType := by
  simp only [mapProperties, placeAll_congr ht, hd]

end Mapping

namespace Conversion

variable {α β : Type} {a b : Mapping}

/-! ## Conversions -/

/-- Attempts are the same if they begin with the same result and go on from it alike. -/
theorem Attempt.andThen_congr {first first' : Attempt α} {next next' : α → Attempt β}
    (h : first = first') (hnext : ∀ result, first.2 = .ok result → next result = next' result) :
    first.andThen next = first'.andThen next' := by
  subst h
  obtain ⟨notes, outcome⟩ := first
  cases outcome with
  | ok result => exact congrArg (Attempt.after notes) (hnext result rfl)
  | error e => rfl

theorem typeFor_congr {token : Text} (h : a.SameLookups b token) :
    typeFor a token = typeFor b token := by
  unfold typeFor
  rw [Mapping.resolve_eq h]

theorem resolve_of_typeFor {token modernType : Text} (h : (typeFor a token).2 = .ok modernType) :
    ∃ note, a.resolve token = some (modernType, note) := by
  unfold typeFor at h
  split at h
  · next note hr => cases h; exact ⟨note, hr⟩
  · cases h

theorem mappedFor_congr {control : Control} {modernType : Text}
    (ht : ∀ key, Table.get? (a.propertyTable modernType) key
      = Table.get? (b.propertyTable modernType) key)
    (hd : a.defaultsFor modernType = b.defaultsFor modernType) :
    mappedFor a control modernType = mappedFor b control modernType := by
  unfold mappedFor
  rw [Mapping.mapProperties_congr ht hd]

/-- The rule and what is written depend on the types and the properties alone. -/
theorem convertControl_congr {control : Control} (h : a.SameLookups b control.typeTag)
    (name : Text) (asSequence : Bool) :
    convertControl a name control asSequence = convertControl b name control asSequence := by
  refine Attempt.andThen_congr (typeFor_congr h) fun modernType hm => ?_
  obtain ⟨note, hr⟩ := resolve_of_typeFor hm
  exact Attempt.andThen_congr (mappedFor_congr (h.targets _ hr) (h.defaults _ hr)) fun _ _ => rfl

theorem convertDeclared_congr {text : Text}
    (h : ∀ document name control, Document.parse text = .ok document →
      document.controls = [(name, control)] → a.SameLookups b control.typeTag) :
    convertDeclared a text = convertDeclared b text := by
  unfold convertDeclared
  split
  · next document hparse =>
    unfold convertDocument
    split
    · next name control hcontrols =>
      exact convertControl_congr (h document name control hparse hcontrols) name _
    · rfl
  · rfl

/-- Two configurations that answer alike what is asked for the control of a text convert the text
alike: with the same output, document, types and notes, or with the same error and the same notes.
So one that is laid over another and leaves these answers as they are changes no conversion. -/
theorem convert_congr {text : Text}
    (h : ∀ document name control, Document.parse text = .ok document →
      document.controls = [(name, control)] → a.SameLookups b control.typeTag) :
    convert a text = convert b text := by
  unfold convert attempt
  rw [convertDeclared_congr h]

/-- The types and properties of a label. -/
def labelMapping : Mapping :=
  ⟨[("Label".toList, "Text@1".toList)],
    [(Mapping.commonKey, [("Color".toList, some "Font.Color".toList), ("Size".toList, none)])],
    [("Text".toList, [("Wrap".toList, .bool true)])]⟩

/-- The same type under another name, and tables for types that a label has nothing to do with. -/
def sliderMapping : Mapping :=
  ⟨[("LABEL".toList, "Slider@2".toList), ("Slider".toList, "Slider@2".toList)],
    [("Slider".toList, [("Color".toList, none)])], [("Slider@2".toList, [("Min".toList, .int 0)])]⟩

/-- A label with two properties. -/
def labelText : Text :=
  "- L:\n    Control: Label@2.5\n    Properties:\n      Color: =Red\n      Size: 12\n".toList

theorem sameLookups_label : (labelMapping.merged sliderMapping).SameLookups labelMapping
    "Label@2.5".toList := by
  have hr : (labelMapping.merged sliderMapping).resolve "Label@2.5".toList
      = some ("Text@1".toList, .typeFound .base "Label@2.5".toList "Text@1".toList) := by
    decide +kernel
  refine ⟨by decide +kernel, fun found hf key => ?_, fun found hf => ?_⟩
  · obtain rfl := Option.some.inj (hr.symm.trans hf)
    exact congrArg (Table.get? · key) (by decide +kernel)
  · obtain rfl := Option.some.inj (hr.symm.trans hf)
    decide +kernel

theorem convert_label :
    (∀ document name control, Document.parse labelText = .ok document →
        document.controls = [(name, control)] →
        (labelMapping.merged sliderMapping).SameLookups labelMapping control.typeTag)
      ∧ convert (labelMapping.merged sliderMapping) labelText = convert labelMapping labelText := by
  have hread : (Document.parse labelText).toOption.map (fun d => d.controls.map (·.2.typeTag))
      = some ["Label@2.5".toList] := by decide +kernel
  have h : ∀ document name control, Document.parse labelText = .ok document →
      document.controls = [(name, control)] →
      (labelMapping.merged sliderMapping).SameLookups labelMapping control.typeTag := by
    intro document name control hp hc
    rw [hp] at hread
    have htags : document.controls.map (·.2.typeTag) = ["Label@2.5".toList] :=
      Option.some.inj hread
    rw [hc] at htags
    have htag : control.typeTag = "Label@2.5".toList := (List.cons.inj htags).1
    exact htag ▸ sameLookups_label
  exact ⟨h, convert_congr h⟩

end Conversion

end ModernControls
