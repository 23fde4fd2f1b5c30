import ModernControls.Proofs.Control.Reporting
import ModernControls.Proofs.Conversion.Logs
import ModernControls.Proofs.Mapping.Exported

/-!
# Failures that are reported

A text can name values that do not exist: a character beyond the last one, a day that no calendar
has, a number without digits. Where it names none, whatever fails for it is reported: it is escaped,
unescaped and looked at to the end, it is read or there is a report, and it is converted or there is
a report that the log ends with. Otherwise what stops the escaping of a text stops the others too,
and there is neither a report nor a log.

The integers of a control can be written because they were read. The mapping of its properties, the
defaults and the rules keep that (`Properties.AreShort`), so the document that is written has a
text, and what is left of its writing are its quoted texts (`WrittenExist`).

Results:
- `Mapping.areShort_mapProperties`, `Rule.areShort_apply`: integers on the way to what is written;
- `Conversion.attempt_ends`: what a conversion ends with;
- `Conversion.failures_reported`: every failure has a report;
- `Conversion.broken_of_escape`: a breakage has none.
-/

namespace ModernControls

open Property

/-! ## Integers in properties -/

namespace Properties

/-- Whether the integers in properties can be written. -/
def AreShort (properties : Properties) : Prop := ∀ e ∈ properties, e.2.HasShortIntegers

variable {ps done : Properties} {key : Text} {value : Property}

theorem AreShort.insert (h : AreShort ps) (hv : value.HasShortIntegers) (key : Text) :
    AreShort (Table.insert ps key value) := fun e he =>
  (Table.of_mem_insert he).elim (h e) fun heq => heq ▸ hv

theorem AreShort.valueAt (h : AreShort ps) (key : Text) :
    (valueAt ps key).HasShortIntegers := by
  rw [Properties.valueAt]
  cases hg : Table.get? ps key with
  | none => exact trivial
  | some value => exact h _ (Table.mem_of_get? hg)

theorem areShort_object {entries : Properties} (h : (Property.object entries).HasShortIntegers) :
    AreShort entries := hasShortIntegersEntries_iff.1 h

theorem object_areShort {entries : Properties} (h : AreShort entries) :
    (Property.object entries).HasShortIntegers := hasShortIntegersEntries_iff.2 h

/-- The induction is on the path, whatever properties it leads through. -/
theorem AreShort.assign (h : AreShort ps) (hv : value.HasShortIntegers) {path : Path}
    {out : Properties} (ho : assign ps value path = some out) : AreShort out := by
  induction path generalizing ps out with
  | nil => cases ho
  | cons key rest ih =>
    cases rest with
    | nil =>
      obtain rfl := Option.some.inj ho
      exact h.insert hv key
    | cons key' rest =>
      rw [Properties.assign.eq_3 _ _ _ _ (by simp)] at ho
      have hinner := h.valueAt key
      split at ho
      · obtain ⟨inner, hi, rfl⟩ := Option.map_eq_some_iff.1 ho
        exact h.insert (object_areShort (ih (List.forall_mem_nil _) hi)) key
      · next entries he =>
        rw [he] at hinner
        obtain ⟨inner, hi, rfl⟩ := Option.map_eq_some_iff.1 ho
        exact h.insert (object_areShort (ih (areShort_object hinner) hi)) key
      · cases ho

end Properties

namespace Mapping

open Properties

variable {done : Properties} {key : Text} {value : Property}

theorem areShort_placeAt (hd : done.AreShort) (hv : value.HasShortIntegers) (key : Text)
    (target : Option Text) : (placeAt done key value target).1.AreShort := by
  cases target with
  | none => exact hd
  | some target =>
    rw [placeAt]
    split
    · rw [placeAtPath]
      split
      · next placed hp => exact hd.assign hv hp
      · exact hd
    · exact hd.insert hv target

theorem areShort_place (table : Table (Option Text)) (hd : done.AreShort)
    (hv : value.HasShortIntegers) (key : Text) : (place table done key value).1.AreShort := by
  unfold place
  split
  · exact hd
  · split
    · exact hd.insert hv key
    · exact areShort_placeAt hd hv key _

theorem areShort_placeAll (table : Table (Option Text)) {classic : Properties}
    (hd : done.AreShort) (hc : classic.AreShort) : (placeAll table done classic).1.AreShort := by
  induction classic generalizing done with
  | nil => exact hd
  | cons entry rest ih =>
    obtain ⟨hfirst, hrest⟩ := List.forall_mem_cons.1 hc
    exact ih (areShort_place table hd hfirst entry.1) hrest

end Mapping

/-! ## Integers in defaults -/

namespace Mapping

variable {done : Properties}

/-- A default that was added has a text, so there is no long integer in it. -/
theorem areShort_addDefaults {defaults : List (Text × Json)} {r : Properties × List Note}
    (hd : done.AreShort) (h : addDefaults done defaults = .ok r) : r.1.AreShort := by
  obtain ⟨added, rfl, -⟩ := exists_of_addDefaults h
  refine List.forall_mem_append.2 ⟨hd, List.forall_mem_map.2 fun d _ => ?_⟩
  exact (Property.exists_asText_iff d.value).1 ⟨d.text, d.is_text⟩

theorem areShort_mapProperties {m : Mapping} {classic : Properties} (hc : classic.AreShort)
    {modernType : Text} {r : Properties × List Note}
    (h : m.mapProperties classic modernType = .ok r) : r.1.AreShort := by
  obtain ⟨added, ha, h⟩ := exists_of_bind h
  obtain rfl := Except.ok.inj h
  have hplaced := areShort_placeAll (m.propertyTable modernType) (List.forall_mem_nil _) hc
  show added.1.AreShort
  exact areShort_addDefaults hplaced ha

end Mapping

/-! ## Integers after a rule -/

namespace Rule

open Properties

variable {classic modern object : Properties}

theorem areShort_ensure (hm : modern.AreShort) (key value : Text) :
    (ensure key value modern).1.AreShort := by
  rw [ensure]
  split
  · exact hm
  · exact hm.insert (show (Property.ofText value).HasShortIntegers from trivial) key

theorem areShort_withoutCorners (hm : modern.AreShort) : (withoutCorners modern).AreShort :=
  fun e he => hm e (List.mem_filter.1 he).1

theorem hasShortIntegers_cornerValue (hm : modern.AreShort) (ho : object.AreShort)
    (corner : Text × Text) : (cornerValue modern object corner).2.HasShortIntegers := by
  have hobject := ho.valueAt corner.2
  have hmodern := hm.valueAt corner.1
  unfold cornerValue
  dsimp only
  split
  · show isLongInteger 0 = false
    decide
  · exact hmodern
  · exact hobject

theorem areShort_withCornerObject (hm : modern.AreShort) (ho : object.AreShort) :
    (withCornerObject modern object).1.AreShort := by
  refine (areShort_withoutCorners hm).insert (object_areShort fun e he => ?_) _
  rcases List.mem_append.1 he with he | he
  · obtain ⟨corner, -, rfl⟩ := List.mem_map.1 he
    exact hasShortIntegers_cornerValue hm ho corner
  · exact ho e (List.mem_filter.1 he).1

theorem areShort_consolidate (hm : modern.AreShort) : (consolidate modern).1.AreShort := by
  have hvalue := hm.valueAt borderRadiusKey
  unfold consolidate
  dsimp only
  split
  · split
    · exact hm
    · exact areShort_withCornerObject hm (List.forall_mem_nil _)
  · next object ho =>
    rw [ho] at hvalue
    split
    · exact hm
    · exact areShort_withCornerObject hm (areShort_object hvalue)
  · split
    · exact hm
    · exact areShort_withoutCorners hm

theorem areShort_convertHint (hc : classic.AreShort) (hm : modern.AreShort) :
    (convertHint classic modern).1.AreShort := by
  have hvalue := hc.valueAt hintKey
  unfold convertHint
  split
  · exact hm
  · split
    · exact hm
    · exact hm.insert hvalue _

theorem areShort_apply (rule : Rule) (hc : classic.AreShort) (hm : modern.AreShort) :
    (rule.apply classic modern).1.AreShort := by
  cases rule with
  | button => exact areShort_consolidate (areShort_ensure hm _ _)
  | gallery => exact areShort_ensure hm _ _
  | form => exact areShort_ensure hm _ _
  | textInput => exact areShort_convertHint hc hm

end Rule

/-! ## Conversions -/

namespace Conversion

/-- The document that a conversion makes of a text and then writes. -/
def modern? (m : Mapping) (text : Text) : Option Document :=
  match Document.parse text with
  | .ok ⟨[(name, control)], asSequence⟩ => do
    let modernType ← (typeFor m control.typeTag).2.toOption
    let mapped ← (mappedFor m control modernType).2.toOption
    let properties ← (ruledFor control modernType mapped).2.toOption
    return modernDocument name control asSequence modernType properties
  | _ => none

/-- Whether all values exist that the quoted texts name on the lines a conversion writes. -/
def WrittenExist (m : Mapping) (text : Text) : Prop :=
  ∀ d ∈ modern? m text, ∀ written ∈ d.toTree.toText.toOption,
    Formula.QuotesExist Formula.quotedValue? written

instance (m : Mapping) (text : Text) : Decidable (WrittenExist m text) :=
  inferInstanceAs (Decidable (∀ d ∈ modern? m text, ∀ written ∈ d.toTree.toText.toOption,
    Formula.QuotesExist Formula.quotedValue? written))

variable {α β : Type} {m : Mapping} {text : Text}

theorem typeFor_ends (m : Mapping) (classicType : Text) :
    Ends Control.Error.IsLogged (typeFor m classicType).2 fun _ => True := by
  rw [typeFor]
  split <;> exact trivial

theorem mappedFor_ends (hm : m.Usable ∧ m.HasShortDefaults) {control : Control}
    (hc : control.IsShort) (modernType : Text) :
    Ends Control.Error.IsLogged (mappedFor m control modernType).2 Properties.AreShort := by
  have hends : GivesIff _ (m.mapProperties control.properties modernType) fun r => r.1.AreShort :=
    Mapping.mapProperties_givesIff hm.1 fun r hr =>
      Mapping.areShort_mapProperties (hasShortIntegersEntries_iff.1 hc.properties) hr
  obtain ⟨r, hr, hshort⟩ := hends.exists_ok (hm.2.addsShort control.properties modernType)
  rw [mappedFor, hr]
  exact hshort

theorem ruledFor_ends {control : Control} (hc : control.IsShort) (modernType : Text)
    {properties : Properties} (hp : properties.AreShort) :
    Ends Control.Error.IsLogged (ruledFor control modernType properties).2
      Properties.AreShort := by
  rw [ruledFor]
  split
  · next rule _ => exact Rule.areShort_apply rule (hasShortIntegersEntries_iff.1 hc.properties) hp
  · exact hp

theorem written_ends (classicType modernType : Text) {d : Document} (hd : d.IsShort)
    (hq : ∀ written, d.toTree.toText = .ok written →
      Formula.QuotesExist Formula.quotedValue? written) :
    Ends Control.Error.IsLogged (written classicType d modernType).2 fun _ => True := by
  have hrender := Document.render_ends hd hq
  rw [written]
  split
  · exact trivial
  · next e he => exact hrender.of_error he

theorem isShort_modernDocument (name : Text) {control : Control} (hc : control.IsShort)
    (asSequence : Bool) (modernType : Text) {properties : Properties} (hp : properties.AreShort) :
    (modernDocument name control asSequence modernType properties).IsShort :=
  List.forall_mem_singleton.2 ⟨hasShortIntegersEntries_iff.2 hp, hc.extras⟩

theorem convertControl_ends (hm : m.Usable ∧ m.HasShortDefaults) (name : Text) {control : Control}
    (hc : control.IsShort) {asSequence : Bool}
    (hp : Document.parse text = .ok ⟨[(name, control)], asSequence⟩) (hw : WrittenExist m text) :
    Ends Control.Error.IsLogged (convertControl m name control asSequence).2 fun _ => True := by
  rw [convertControl, outcome_andThen]
  refine (typeFor_ends m _).self.bind fun modernType htype => ?_
  rw [outcome_andThen]
  refine (mappedFor_ends hm hc modernType).self.bind fun mapped hmapped => ?_
  rw [outcome_andThen]
  refine (ruledFor_ends hc modernType hmapped.2).self.bind fun properties hruled => ?_
  have hd : modern? m text
      = some (modernDocument name control asSequence modernType properties) := by
    rw [modern?, hp]
    simp [htype.1, hmapped.1, hruled.1, Except.toOption]
  refine written_ends _ _ (isShort_modernDocument name hc _ _ hruled.2) fun written hwritten => ?_
  exact hw _ hd written (hwritten ▸ rfl)

theorem convertDeclared_ends (hm : m.Usable ∧ m.HasShortDefaults) (ht : Document.ValuesExist text)
    (hw : WrittenExist m text) :
    Ends Control.Error.IsLogged (convertDeclared m text).2 fun _ => True := by
  have hparse := Document.parse_ends ht
  rw [convertDeclared]
  split
  · next d hd =>
    obtain ⟨controls, asSequence⟩ := d
    rw [convertDocument.eq_def]
    split
    · next name control hc =>
      obtain rfl : controls = [(name, control)] := hc
      have hshort := hparse.of_ok hd (name, control) (List.mem_singleton_self _)
      exact convertControl_ends hm name hshort hd hw
    · exact trivial
  · next e he => exact hparse.of_error he

theorem attempt_ends (hm : m.Usable ∧ m.HasShortDefaults) (ht : Document.ValuesExist text)
    (hw : WrittenExist m text) :
    Ends Control.Error.IsLogged (attempt m text).2 fun _ => True := by
  unfold attempt
  split
  · exact trivial
  · exact convertDeclared_ends hm ht hw

theorem exists_report {e : Control.Error} (h : e.IsLogged) :
    ∃ report, loggedReport? e = some report ∧ e.report? = some report := by
  cases e with
  | broken b => exact h.elim
  | unsupportedValue u => exact h.elim
  | _ => exact ⟨_, rfl, rfl⟩

theorem isLogged_of_convert (hm : m.Usable ∧ m.HasShortDefaults) (ht : Document.ValuesExist text)
    (hw : WrittenExist m text) {r : Refusal} (h : convert m text = .error r) :
    r.error.IsLogged := by
  have hends := attempt_ends hm ht hw
  rw [convert] at h
  split at h
  · cases h
  · next notes e ha =>
    rw [ha] at hends
    split at h
    · exact Except.error.inj h ▸ hends
    · exact Except.error.inj h ▸ hends

/-- Every failure has a report for a text that names only values which exist: it is escaped,
unescaped and looked at to the end, a reading that fails has a report, and a conversion that fails
has one that its log ends with, under every configuration whose defaults can be noted. -/
theorem failures_reported (hm : m.Obtained) (hs : m.HasShortDefaults) (ht : Document.ValuesExist text)
    (hq : Formula.QuotesExist Formula.quotedValue? text) (hw : WrittenExist m text) :
    (∃ escaped, Formula.escape text = .ok escaped) ∧
    (∃ unescaped, Formula.unescape text = .ok unescaped) ∧
    (∃ answer, Document.isDocument text = .ok answer) ∧
    (∀ e, Document.parse text = .error e → ∃ report, e.report? = some report) ∧
    ∀ r, convert m text = .error r → ∃ report, r.error.report? = some report ∧
      r.log.getLast?.map Note.message = some ("Error: ".toList ++ report) := by
  refine ⟨Formula.exists_escape ht.quotes, Formula.exists_unescape hq,
    Document.exists_isDocument ht, fun e he => ?_, fun r hr => ?_⟩
  · obtain ⟨report, -, hreport⟩ := exists_report ((Document.parse_ends ht).of_error he)
    exact ⟨report, hreport⟩
  · obtain ⟨report, hlogged, hreport⟩ :=
      exists_report (isLogged_of_convert ⟨(Mapping.obtained_iff.1 hm).2, hs⟩ ht hw hr)
    exact ⟨report, hreport, by rw [convert_error_log hr hlogged]; rfl⟩

/-- The conversion of a control of an unknown type is refused, and its log says so. -/
theorem failures_reported_smile :
    let text := "- B:\n    Control: \"\\U0001F600\"\n".toList
    Mapping.builtIn.Obtained ∧ Mapping.builtIn.HasShortDefaults ∧ Document.ValuesExist text ∧
      Formula.QuotesExist Formula.quotedValue? text ∧ WrittenExist Mapping.builtIn text ∧
      ∃ r report, convert Mapping.builtIn text = .error r ∧ r.error.report? = some report ∧
        r.log.getLast?.map Note.message = some ("Error: ".toList ++ report) := by
  intro text
  have ht : Document.ValuesExist text := by decide +kernel
  have hq : Formula.QuotesExist Formula.quotedValue? text := by decide +kernel
  have hw : WrittenExist Mapping.builtIn text := by decide +kernel
  obtain ⟨-, -, -, -, hconvert⟩ := failures_reported .builtIn Mapping.hasShortDefaults_builtIn ht hq hw
  have hnone : (convert Mapping.builtIn text).toOption = none := by decide +kernel
  cases hc : convert Mapping.builtIn text with
  | ok c =>
    rw [hc] at hnone
    cases hnone
  | error r =>
    obtain ⟨report, hreport, hlog⟩ := hconvert r hc
    exact ⟨.builtIn, Mapping.hasShortDefaults_builtIn, ht, hq, hw, r, report, rfl, hreport, hlog⟩

/-! ## Breakages -/

/-- What stops the escaping of a text is no error of a document, so it stops the reading without a
report, and a conversion without a log. -/
theorem broken_of_escape {b : Yaml.Breakage} (h : Formula.escape text = .error b) :
    Document.parse text = .error (.broken b) ∧
      (Document.hasKeys text = false → Document.isDocument text = .error b) ∧
      ((Declaration.scan text).isSome → convert m text = .error ⟨.broken b, []⟩) := by
  have htree : Document.treeOf text = .error (.broken b) := by rw [Document.treeOf, h]
  have hparse : Document.parse text = .error (.broken b) := by rw [Document.parse, htree]; rfl
  refine ⟨hparse, fun hkeys => ?_, fun hscan => ?_⟩
  · simp [Document.isDocument, Document.check, hkeys, htree, Except.map]
  · obtain ⟨d, hd⟩ := Option.isSome_iff_exists.1 hscan
    simp [convert, attempt, hd, convertDeclared, hparse, Attempt.after, loggedReport?]

/-- A quoted text that names no character stops them all. -/
theorem not_failures_reported_of_codePoint :
    let text := "- B:\n    Control: X@1\n    k: \"\\U00110000\"\n".toList
    ∃ b, Formula.escape text = .error b ∧ Formula.unescape text = .error b ∧
      Document.isDocument text = .error b ∧ Document.parse text = .error (.broken b) ∧
      convert Mapping.builtIn text = .error ⟨.broken b, []⟩ ∧
      (Control.Error.broken b).report? = none := by
  intro text
  have hescape : Formula.escape text = .error .codePoint := by rfl
  have hunescape : Formula.unescape text = .error .codePoint := by rfl
  obtain ⟨hparse, hdocument, hconvert⟩ := broken_of_escape hescape
  exact ⟨_, hescape, hunescape, hdocument (by decide +kernel), hparse,
    hconvert (by decide +kernel), rfl⟩

end Conversion

end ModernControls
