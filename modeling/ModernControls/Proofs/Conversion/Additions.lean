import ModernControls.Proofs.Conversion.Logs
import ModernControls.Proofs.Mapping.Placing

/-!
# What a conversion adds

Once its properties are mapped, a control gets the defaults of its modern type and what the rule of
its category makes of it. Both only add: what was mapped stays as it is and in its order. The corner
radii alone are set aside, as a rule may take them away and put them together in one object.

**Kept properties (`Properties.Keeps`).** Properties that come first in others, in their order and
with their values, corner radii set aside in both. It is kept along steps, and each of the steps is
said to keep what it begins with.

Results:
- `Mapping.adds_mapProperties`: defaults come after what is mapped;
- `Rule.keeps_apply`: every rule keeps what it begins with;
- `Conversion.exists_adds`: the law for conversions.
-/
namespace ModernControls

/-- The keys of corner radii: that of the object, and those of single corners. -/
def radiusKeys : List Text := borderRadiusKey :: radiusCorners.map (·.1)

namespace Properties

/-- Properties without corner radii. -/
def besideRadii (ps : Properties) : Properties := ps.filter fun e => !radiusKeys.contains e.1

/-- Whether properties come first in others, corner radii set aside. -/
def Keeps (before after : Properties) : Prop := besideRadii before <+: besideRadii after

/-- Whether properties hold all that was mapped, in its order and before anything else, and all
defaults, corner radii set aside. -/
structure Adds (defaults : Table Json) (mapped final : Properties) : Prop where
  values : ∀ key ∈ Table.keys mapped, key ∉ radiusKeys → Table.get? final key = Table.get? mapped key
  order : Table.keys (besideRadii mapped) <+: Table.keys (besideRadii final)
  defaults : ∀ key ∈ Table.keys defaults, key ∉ radiusKeys → key ∈ Table.keys final

variable {before between after : Properties} {key : Text}

/-! ## Kept properties -/

theorem get?_besideRadii (h : key ∉ radiusKeys) (ps : Properties) :
    Table.get? (besideRadii ps) key = Table.get? ps key :=
  Table.get?_filter (p := fun k => !radiusKeys.contains k) (by simpa using h) ps

theorem mem_keys_besideRadii {ps : Properties} :
    key ∈ Table.keys (besideRadii ps) ↔ key ∈ Table.keys ps ∧ key ∉ radiusKeys := by
  rw [besideRadii, Table.keys_filter fun k => !radiusKeys.contains k]
  simp

theorem Keeps.refl (ps : Properties) : Keeps ps ps := List.prefix_rfl

theorem Keeps.trans (h : Keeps before between) (h' : Keeps between after) : Keeps before after :=
  List.IsPrefix.trans h h'

theorem Keeps.of_isPrefix (h : before <+: after) : Keeps before after := h.filter _

theorem Keeps.keys (h : Keeps before after) :
    Table.keys (besideRadii before) <+: Table.keys (besideRadii after) := h.map _

theorem Keeps.mem (h : Keeps before after) (hm : key ∈ Table.keys before) (hk : key ∉ radiusKeys) :
    key ∈ Table.keys after :=
  (mem_keys_besideRadii.1 (h.keys.subset (mem_keys_besideRadii.2 ⟨hm, hk⟩))).1

theorem Keeps.get? (h : Keeps before after) (hm : key ∈ Table.keys before) (hk : key ∉ radiusKeys) :
    Table.get? after key = Table.get? before key := by
  obtain ⟨v, hv⟩ := Option.isSome_iff_exists.1 ((Table.get?_isSome_iff before key).2 hm)
  obtain ⟨more, hmore⟩ := h
  rw [← get?_besideRadii hk after, ← hmore,
    Table.get?_append ((get?_besideRadii hk before).trans hv), hv]

theorem Keeps.of_eq (h : besideRadii after = besideRadii before) : Keeps before after :=
  ⟨[], (List.append_nil _).trans h.symm⟩

theorem besideRadii_insert (h : key ∈ radiusKeys) (ps : Properties) (value : Property) :
    besideRadii (Table.insert ps key value) = besideRadii ps := by
  induction ps with
  | nil => simp [besideRadii, Table.insert, h]
  | cons e rest ih =>
    obtain ⟨k, v⟩ := e
    unfold besideRadii at ih ⊢
    by_cases hk : k = key
    · subst hk
      simp [Table.insert, h]
    · rw [Table.insert, if_neg hk, List.filter_cons, List.filter_cons, ih]

/-- A write keeps what is there if it is that of a corner radius or of a new key. -/
theorem keeps_insert (h : key ∈ Table.keys before → key ∈ radiusKeys) (value : Property) :
    Keeps before (Table.insert before key value) := by
  by_cases hk : key ∈ radiusKeys
  · exact .of_eq (besideRadii_insert hk before value)
  · rw [Table.insert_of_not_mem fun hm => hk (h hm)]
    exact .of_isPrefix (List.prefix_append _ _)

end Properties

namespace Mapping

variable {done : Properties} {r : Properties × List Note}

/-! ## Defaults -/

/-- With defaults, properties are mapped as without, and then these are added. -/
theorem adds_mapProperties {m : Mapping} {classic all : Properties} {modernType : Text}
    {notes : List Note} (h : m.mapProperties classic modernType = .ok (all, notes)) :
    ∃ mapped others,
      { m with defaults := [] }.mapProperties classic modernType = .ok (mapped, others)
        ∧ mapped <+: all ∧ ∀ key ∈ Table.keys (m.defaultsFor modernType), key ∈ Table.keys all := by
  obtain ⟨added, hadded, rfl⟩ := mapProperties_eq h
  refine ⟨(placeAll (m.propertyTable modernType) [] classic).1,
    (placeAll (m.propertyTable modernType) [] classic).2 ++ [], rfl, prefix_addDefaults hadded, ?_⟩
  intro key hk
  exact mem_keys_addDefaults hadded hk

end Mapping

namespace Rule

open Properties

variable {modern : Properties}

/-! ## Rules -/

theorem keeps_ensure (key value : Text) (modern : Properties) :
    Keeps modern (ensure key value modern).1 := by
  unfold ensure
  split
  · exact .refl modern
  · next hkey =>
    exact keeps_insert (fun hm => absurd (Table.hasKey_iff.2 hm) hkey) _

theorem besideRadii_withoutCorners (modern : Properties) :
    besideRadii (withoutCorners modern) = besideRadii modern := by
  unfold besideRadii withoutCorners
  rw [List.filter_filter]
  apply List.filter_congr
  intro e _
  by_cases h : e.1 ∈ radiusKeys
  · simp [h]
  · have hcorner : e.1 ∉ radiusCorners.map (·.1) := fun hm => h (List.mem_cons_of_mem _ hm)
    simpa [h] using hcorner

theorem keeps_withoutCorners (modern : Properties) : Keeps modern (withoutCorners modern) :=
  .of_eq (besideRadii_withoutCorners modern)

theorem keeps_withCornerObject (modern object : Properties) :
    Keeps modern (withCornerObject modern object).1 :=
  (keeps_withoutCorners modern).trans (keeps_insert (fun _ => List.mem_cons_self) _)

theorem keeps_consolidate (modern : Properties) : Keeps modern (consolidate modern).1 := by
  unfold consolidate
  dsimp only
  split
  · split
    · exact .refl modern
    · exact keeps_withCornerObject modern []
  · next object _ =>
    split
    · exact .refl modern
    · exact keeps_withCornerObject modern object
  · split
    · exact .refl modern
    · exact keeps_withoutCorners modern

theorem keeps_convertHint (classic modern : Properties) :
    Keeps modern (convertHint classic modern).1 := by
  unfold convertHint
  split
  · exact .refl modern
  · split
    · exact .refl modern
    · next hkey =>
      exact keeps_insert (fun hm => absurd (Table.hasKey_iff.2 hm) hkey) _

/-- Every rule keeps what it begins with. -/
theorem keeps_apply (rule : Rule) (classic modern : Properties) :
    Keeps modern (rule.apply classic modern).1 := by
  cases rule with
  | button => exact (keeps_ensure _ _ modern).trans (keeps_consolidate _)
  | gallery => exact keeps_ensure _ _ modern
  | form => exact keeps_ensure _ _ modern
  | textInput => exact keeps_convertHint classic modern

end Rule

namespace Conversion

open Properties

variable {m : Mapping} {text : Text}

/-! ## Conversions -/

theorem keeps_of_ruledFor {control : Control} {modernType : Text} {mapped properties : Properties}
    (h : (ruledFor control modernType mapped).2 = .ok properties) : Keeps mapped properties := by
  unfold ruledFor at h
  split at h
  · next rule _ =>
    obtain rfl := Except.ok.inj h
    exact rule.keeps_apply control.properties mapped
  · obtain rfl := Except.ok.inj h
    exact .refl mapped

theorem mapProperties_of_mappedFor {control : Control} {modernType : Text} {mapped : Properties}
    (h : (mappedFor m control modernType).2 = .ok mapped) :
    ∃ notes, m.mapProperties control.properties modernType = .ok (mapped, notes) := by
  unfold mappedFor at h
  split at h
  · next notes hmap =>
    obtain rfl := Except.ok.inj h
    exact ⟨notes, hmap⟩
  · cases h

/-- What a converted control is made of. -/
theorem result_of_convertControl {name : Text} {control : Control} {asSequence : Bool}
    {result : Converted} (h : (convertControl m name control asSequence).2 = .ok result) :
    ∃ mapped properties, (mappedFor m control result.modernType).2 = .ok mapped
      ∧ (ruledFor control result.modernType mapped).2 = .ok properties
      ∧ result.document = modernDocument name control asSequence result.modernType properties := by
  rw [convertControl, outcome_andThen] at h
  obtain ⟨modernType, -, h⟩ := exists_of_bind h
  rw [outcome_andThen] at h
  obtain ⟨mapped, hmapped, h⟩ := exists_of_bind h
  rw [outcome_andThen] at h
  obtain ⟨properties, hruled, h⟩ := exists_of_bind h
  unfold written at h
  split at h
  · obtain rfl := Except.ok.inj h
    exact ⟨mapped, properties, hmapped, hruled, rfl⟩
  · cases h

theorem result_of_convert {c : Conversion} (h : convert m text = .ok c) :
    ∃ name control asSequence, Document.parse text = .ok (.single name control asSequence)
      ∧ (convertControl m name control asSequence).2 = .ok c.result := by
  have hattempt : (attempt m text).2 = .ok c.result := by rw [convert_ok_log h]
  unfold attempt at hattempt
  split at hattempt
  · cases hattempt
  · have hdeclared : (convertDeclared m text).2 = .ok c.result := hattempt
    unfold convertDeclared at hdeclared
    split at hdeclared
    · next document hparse =>
      obtain ⟨controls, asSequence⟩ := document
      rw [convertDocument.eq_def] at hdeclared
      split at hdeclared
      · next name control hcontrols =>
        obtain rfl : controls = [(name, control)] := hcontrols
        exact ⟨name, control, asSequence, hparse, hdeclared⟩
      · cases hdeclared
    · cases hdeclared

/-- Defaults and rules only add. The control of every converted document has the properties that
the classic ones are mapped to without any defaults, with the same values, in the same order and
before anything that was added; and it has every default of its type. Corner radii are set aside.
This holds of every rule, whether it is that for the modern type or that for the classic one. -/
theorem exists_adds {c : Conversion} (h : convert m text = .ok c) :
    ∃ name control asSequence mapped notes properties,
      Document.parse text = .ok (.single name control asSequence)
        ∧ { m with defaults := [] }.mapProperties control.properties c.result.modernType
            = .ok (mapped, notes)
        ∧ c.result.document
            = modernDocument name control asSequence c.result.modernType properties
        ∧ Adds (m.defaultsFor c.result.modernType) mapped properties := by
  obtain ⟨name, control, asSequence, hparse, hcontrol⟩ := result_of_convert h
  obtain ⟨all, properties, hall, hruled, hdocument⟩ := result_of_convertControl hcontrol
  obtain ⟨notes, hmap⟩ := mapProperties_of_mappedFor hall
  obtain ⟨mapped, others, hmapped, hprefix, hdefaults⟩ := Mapping.adds_mapProperties hmap
  have hrule := keeps_of_ruledFor hruled
  have hkeeps : Keeps mapped properties := (Keeps.of_isPrefix hprefix).trans hrule
  refine ⟨name, control, asSequence, mapped, others, properties, hparse, hmapped, hdocument, ?_⟩
  constructor
  · intro key hm hk
    exact hkeeps.get? hm hk
  · exact hkeeps.keys
  · intro key hd hk
    exact hrule.mem (hdefaults key hd) hk

/-- A modern type that has no rule for itself, for buttons that have one. One of its defaults is in
the place of what the rule would add, and one is a radius for all corners. -/
def chipMapping : Mapping :=
  ⟨[("Classic/Button".toList, "Chip@1".toList)],
    [(Mapping.commonKey, [("Fill".toList, some "Style.Fill".toList)])],
    [("Chip@1".toList, [("ButtonType".toList, .string "Outline".toList),
      ("BorderRadius".toList, .object [("TopLeft".toList, .int 2)])])]⟩

/-- A classic button with a radius for one corner. -/
def roundText : Text :=
  ("- B:\n    Control: Classic/Button@2.2.0\n    Properties:\n      RadiusTopRight: =8\n" ++
    "      Fill: =Red\n      Text: =1\n").toList

theorem exists_adds_roundText : ∃ c, convert chipMapping roundText = .ok c
    ∧ ∃ name control asSequence mapped notes properties,
      Document.parse roundText = .ok (.single name control asSequence)
        ∧ { chipMapping with defaults := [] }.mapProperties control.properties c.result.modernType
            = .ok (mapped, notes)
        ∧ c.result.document
            = modernDocument name control asSequence c.result.modernType properties
        ∧ Adds (chipMapping.defaultsFor c.result.modernType) mapped properties := by
  have hsome : (convert chipMapping roundText).toOption.isSome = true := by decide +kernel
  obtain ⟨c, hc⟩ := Option.isSome_iff_exists.1 hsome
  have h : convert chipMapping roundText = .ok c := eq_ok_of_toOption hc
  exact ⟨c, h, exists_adds h⟩

end Conversion

end ModernControls
