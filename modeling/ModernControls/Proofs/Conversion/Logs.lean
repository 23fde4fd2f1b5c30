import ModernControls.Conversion.Engine
import ModernControls.Proofs.Mapping.Defaults

/-!
# The logs of conversions

A conversion notes first that it starts, and last that it is completed or why it failed. Between
these it only notes steps: what was found, what became of each property, which rule was applied. So
a log tells by its ends how the conversion went, and the words for a step never pass for those of an
end.

**Steps (`Note.isStep`).** A note that is neither the first nor the last one of a log.

**Attempts (`Attempt.Ends`).** An attempt that succeeds notes steps and then that it is completed;
one that fails notes steps alone.

Results:
- `Note.message_ne`: no other note has the words for a start or for a completed conversion;
- `Conversion.attempt_eq`: every attempt notes a start, steps and how it ends;
- `Conversion.log_of_ok`, `Conversion.log_of_error`: so the log of a conversion is one of its kind;
- `Log.spans_of_steps`, `Log.not_completed_of_steps`: what this says of its words.
-/
namespace ModernControls

namespace Note

open List (prefix_append)

/-! ## Words -/

/-- What the messages of notes begin with, but for the start of a log and its end. -/
def leads : List Text :=
  ["Found control ".toList, "Unsupported control type: ".toList, "Error: ".toList,
    "Control type conversion".toList, "Property ".toList, "Property conversion: ".toList,
    "Added ".toList, "Added default property: ".toList, "Applying ".toList, "Converted ".toList,
    "Kept ".toList, "Converting ".toList]

theorem exists_lead {n : Note} (hs : n ≠ started) (hc : n ≠ completed) :
    ∃ l ∈ leads, l <+: n.message := by
  have behind : ∀ {lead text rest : Text}, lead <+: text → lead <+: text ++ rest :=
    fun h => h.trans (prefix_append _ _)
  have hproperty : ∀ key rest : Text, ∃ l ∈ leads, l <+: property key ++ rest := fun key rest =>
    ⟨"Property ".toList, by decide +kernel, behind (prefix_append _ _)⟩
  cases n with
  | started => exact absurd rfl hs
  | completed => exact absurd rfl hc
  | found name type =>
    exact ⟨"Found control ".toList, by decide +kernel, behind (behind (prefix_append _ _))⟩
  | unsupportedType type =>
    exact ⟨"Unsupported control type: ".toList, by decide +kernel, prefix_append _ _⟩
  | failed report => exact ⟨"Error: ".toList, by decide +kernel, prefix_append _ _⟩
  | typeFound how token target =>
    exact ⟨"Control type conversion".toList, by decide +kernel,
      behind (behind (behind (behind (prefix_append _ _))))⟩
  | skipped key => exact hproperty key _
  | overrides key target =>
    obtain ⟨l, hl, hp⟩ := hproperty key " overrides earlier value of ".toList
    exact ⟨l, hl, behind hp⟩
  | kept key => exact hproperty key _
  | dropped key => exact hproperty key _
  | blocked key head =>
    obtain ⟨l, hl, hp⟩ := hproperty key " dropped - ".toList
    exact ⟨l, hl, behind (behind hp)⟩
  | converted key target =>
    exact ⟨"Property conversion: ".toList, by decide +kernel, behind (behind (prefix_append _ _))⟩
  | defaulted key value =>
    exact ⟨"Added default property: ".toList, by decide +kernel,
      behind (behind (prefix_append _ _))⟩
  | applying rule =>
    exact ⟨"Applying ".toList, by decide +kernel, behind (prefix_append _ _)⟩
  | added key value =>
    exact ⟨"Added ".toList, by decide +kernel, behind (behind (prefix_append _ _))⟩
  | hintConverted => exact ⟨"Converted ".toList, by decide +kernel, by decide +kernel⟩
  | radiusKept => exact ⟨"Kept ".toList, by decide +kernel, by decide +kernel⟩
  | radiusConverted => exact ⟨"Converting ".toList, by decide +kernel, by decide +kernel⟩

/-- No other note has the words for a start or for a completed conversion. -/
theorem message_ne {n : Note} (hs : n ≠ started) (hc : n ≠ completed) :
    n.message ≠ started.message ∧ n.message ≠ completed.message := by
  obtain ⟨l, hl, hp⟩ := exists_lead hs hc
  have hnot : ∀ l ∈ leads, ¬ l <+: started.message ∧ ¬ l <+: completed.message := by
    decide +kernel
  exact ⟨fun h => (hnot l hl).1 (h ▸ hp), fun h => (hnot l hl).2 (h ▸ hp)⟩

/-! ## Steps -/

/-- Whether a note is one of a step: not the start of a log and not an end. -/
def isStep : Note → Bool
  | started => false
  | completed => false
  | failed _ => false
  | _ => true

theorem message_ne_of_isStep {n : Note} (h : n.isStep = true) :
    n.message ≠ started.message ∧ n.message ≠ completed.message :=
  message_ne (by rintro rfl; cases h) (by rintro rfl; cases h)

end Note

/-- Whether all notes are notes of steps. -/
abbrev Steps (notes : List Note) : Prop := ∀ n ∈ notes, n.isStep = true

theorem Steps.append {a b : List Note} (ha : Steps a) (hb : Steps b) : Steps (a ++ b) := by
  intro n hn
  rcases List.mem_append.1 hn with h | h
  · exact ha n h
  · exact hb n h

theorem Steps.nil : Steps [] := fun _ h => nomatch h

theorem Steps.cons {n : Note} {notes : List Note} (hn : n.isStep = true) (h : Steps notes) :
    Steps (n :: notes) := by
  intro k hk
  rcases List.mem_cons.1 hk with rfl | hk
  · exact hn
  · exact h k hk

theorem Steps.one {n : Note} (hn : n.isStep = true) : Steps [n] := .cons hn .nil

/-! ## The steps of a conversion -/

namespace Mapping

open Note ModernControls.Properties

variable {done : Properties}

theorem isStep_resolve {m : Mapping} {token target : Text} {n : Note}
    (h : m.resolve token = some (target, n)) : n.isStep = true := by
  simp only [resolve, Option.orElse_eq_orElse, Option.orElse_eq_or, Option.or_eq_some_iff,
    Option.map_eq_some_iff, Prod.mk.injEq] at h
  rcases h with ⟨_, _, _, rfl⟩ | ⟨_, ⟨_, _, _, rfl⟩ | ⟨_, ⟨_, _, _, rfl⟩ | ⟨_, _, _, _, rfl⟩⟩⟩ <;> rfl

theorem steps_overrideNote (key target : Text) : Steps (overrideNote done key target) := by
  unfold overrideNote
  split
  · exact .nil
  · exact .one rfl

theorem steps_placeAt (key : Text) (value : Property) (target : Option Text) :
    Steps (placeAt done key value target).2 := by
  cases target with
  | none => exact .one rfl
  | some target =>
    rw [placeAt]
    split
    · rw [placeAtPath]
      split
      · exact (steps_overrideNote key target).append (.one rfl)
      · exact (steps_overrideNote key target).append (.one rfl)
    · exact (steps_overrideNote key target).append (.one rfl)

theorem steps_place (table : Table (Option Text)) (key : Text) (value : Property) :
    Steps (place table done key value).2 := by
  unfold place
  split
  · exact .one rfl
  · split
    · exact (steps_overrideNote key key).append (.one rfl)
    · exact steps_placeAt key value _

theorem steps_placeAll (table : Table (Option Text)) (classic : List (Text × Property)) :
    Steps (placeAll table done classic).2 := by
  induction classic generalizing done with
  | nil => exact .nil
  | cons entry rest ih => exact (steps_place table entry.1 entry.2).append ih

theorem steps_addDefaults {defaults : List (Text × Json)} {all : Properties} {notes : List Note}
    (h : addDefaults done defaults = .ok (all, notes)) : Steps notes := by
  intro n hn
  obtain ⟨d, rfl⟩ := exists_of_mem_addDefaults h hn
  rfl

theorem steps_mapProperties {m : Mapping} {classic all : Properties} {modernType : Text}
    {notes : List Note} (h : m.mapProperties classic modernType = .ok (all, notes)) :
    Steps notes := by
  unfold mapProperties at h
  cases hd : addDefaults (placeAll (m.propertyTable modernType) [] classic).1
      (m.defaultsFor modernType) with
  | error u => simp only [bind, Except.bind, hd] at h; cases h
  | ok r =>
    simp only [bind, Except.bind, hd] at h
    cases h
    exact (steps_placeAll _ classic).append (steps_addDefaults hd)

end Mapping

namespace Rule

variable {modern : Properties}

theorem steps_ensure (key value : Text) : Steps (ensure key value modern).2 := by
  unfold ensure
  split
  · exact .nil
  · exact .one rfl

theorem steps_consolidate : Steps (consolidate modern).2 := by
  unfold consolidate
  dsimp only
  split
  · split
    · exact .nil
    · exact .one rfl
  · split
    · exact .nil
    · exact .one rfl
  · split
    · exact .nil
    · exact .one rfl

theorem steps_convertHint (classic : Properties) : Steps (convertHint classic modern).2 := by
  unfold convertHint
  split
  · exact .nil
  · split
    · exact .nil
    · exact .one rfl

theorem steps_apply (rule : Rule) (classic : Properties) : Steps (rule.apply classic modern).2 := by
  refine .cons rfl ?_
  cases rule with
  | button => exact (steps_ensure _ _).append steps_consolidate
  | gallery => exact steps_ensure _ _
  | form => exact steps_ensure _ _
  | textInput => exact steps_convertHint classic

end Rule

namespace Conversion

variable {α β : Type}

/-! ## Attempts -/

theorem outcome_andThen (a : Attempt α) (next : α → Attempt β) :
    (a.andThen next).2 = a.2 >>= fun x => (next x).2 := by
  obtain ⟨notes, outcome⟩ := a
  cases outcome <;> rfl

/-- Whether an attempt that succeeds notes steps and then that it is completed, and one that fails
notes steps alone. -/
def Attempt.Ends (a : Attempt α) : Prop :=
  match a.2 with
  | .ok _ => ∃ steps, a.1 = steps ++ [.completed] ∧ Steps steps
  | .error _ => Steps a.1

theorem Attempt.Ends.after {a : Attempt α} (h : a.Ends) {notes : List Note} (hn : Steps notes) :
    (a.after notes).Ends := by
  obtain ⟨own, outcome⟩ := a
  cases outcome with
  | ok result =>
    obtain ⟨steps, rfl, hs⟩ := h
    exact ⟨notes ++ steps, (List.append_assoc ..).symm, hn.append hs⟩
  | error e => exact hn.append h

theorem Attempt.ends_andThen {a : Attempt α} {next : α → Attempt β} (ha : Steps a.1)
    (hnext : ∀ x, (next x).Ends) : (a.andThen next).Ends := by
  obtain ⟨notes, outcome⟩ := a
  cases outcome with
  | ok result => exact (hnext result).after ha
  | error e => exact ha

theorem steps_typeFor (m : Mapping) (classicType : Text) : Steps (typeFor m classicType).1 := by
  unfold typeFor
  split
  · next h => exact .one (Mapping.isStep_resolve h)
  · exact .one rfl

theorem steps_mappedFor (m : Mapping) (control : Control) (modernType : Text) :
    Steps (mappedFor m control modernType).1 := by
  unfold mappedFor
  split
  · next h => exact Mapping.steps_mapProperties h
  · exact .nil

theorem steps_ruledFor (control : Control) (modernType : Text) (properties : Properties) :
    Steps (ruledFor control modernType properties).1 := by
  unfold ruledFor
  split
  · next rule _ => exact rule.steps_apply control.properties
  · exact .nil

theorem ends_written (classicType : Text) (document : Document) (modernType : Text) :
    (written classicType document modernType).Ends := by
  unfold written
  split
  · exact ⟨[], rfl, .nil⟩
  · exact Steps.nil

theorem ends_convertControl (m : Mapping) (name : Text) (control : Control) (asSequence : Bool) :
    (convertControl m name control asSequence).Ends :=
  Attempt.ends_andThen (steps_typeFor m _) fun modernType =>
    Attempt.ends_andThen (steps_mappedFor m control modernType) fun mapped =>
      Attempt.ends_andThen (steps_ruledFor control modernType mapped) fun _ => ends_written _ _ _

theorem ends_convertDeclared (m : Mapping) (text : Text) : (convertDeclared m text).Ends := by
  unfold convertDeclared
  split
  · unfold convertDocument
    split
    · exact ends_convertControl m _ _ _
    · exact Steps.nil
  · exact Steps.nil

/-- Behind the start of its log, every attempt notes steps and how it ends. -/
theorem attempt_eq (m : Mapping) (text : Text) :
    ∃ a : Attempt Converted, attempt m text = a.after [.started] ∧ a.Ends := by
  refine ⟨_, rfl, ?_⟩
  split
  · exact Steps.nil
  · exact (ends_convertDeclared m text).after (.one rfl)

/-! ## Logs -/

variable {m : Mapping} {text : Text}

theorem log_of_ok {c : Conversion} (h : convert m text = .ok c) :
    ∃ steps, c.log = .started :: steps ++ [.completed] ∧ Steps steps := by
  obtain ⟨a, ha, hends⟩ := attempt_eq m text
  rw [convert_ok_log h] at ha
  obtain ⟨notes, outcome⟩ := a
  obtain ⟨hlog, rfl⟩ := Prod.mk.inj ha
  obtain ⟨steps, rfl, hs⟩ := hends
  exact ⟨steps, hlog, hs⟩

theorem log_of_error {r : Refusal} (h : convert m text = .error r) {report : Text}
    (hr : loggedReport? r.error = some report) :
    ∃ steps, r.log = .started :: steps ++ [.failed report] ∧ Steps steps := by
  obtain ⟨⟨notes, outcome⟩, ha, hends⟩ := attempt_eq m text
  rw [convert, ha] at h
  cases outcome with
  | ok result => cases h
  | error e =>
    simp only [Attempt.after] at h
    cases he : loggedReport? e with
    | none =>
      rw [he] at h
      cases h
      rw [he] at hr
      cases hr
    | some shown =>
      rw [he] at h
      cases h
      rw [he] at hr
      cases hr
      exact ⟨notes, rfl, hends⟩

end Conversion

/-! ## Words of logs -/

/-- Whether a log in words begins with a start, has no other, and ends with some words. -/
structure Log.Spans (messages : List Text) (last : Text) : Prop where
  first : messages.head? = some Note.started.message
  once : messages.count Note.started.message = 1
  last : messages.getLast? = some last

theorem Log.spans_of_steps {steps : List Note} (hs : Steps steps) {last : Note}
    (hl : last.message ≠ Note.started.message) :
    Log.Spans ((Note.started :: steps ++ [last]).map Note.message) last.message where
  first := rfl
  once := by
    have hnot : Note.started.message ∉ (steps ++ [last]).map Note.message := by
      intro hm
      obtain ⟨n, hn, he⟩ := List.mem_map.1 hm
      rcases List.mem_append.1 hn with h | h
      · exact (Note.message_ne_of_isStep (hs n h)).1 he
      · obtain rfl := List.mem_singleton.1 h
        exact hl he
    rw [List.cons_append, List.map_cons, List.count_cons_self, List.count_eq_zero_of_not_mem hnot]
  last := by
    rw [List.map_append]
    exact List.getLast?_concat

/-- No step says that the conversion is completed. -/
theorem Log.not_completed_of_steps {steps : List Note} (hs : Steps steps) {last : Note}
    (hl : last.message ≠ Note.completed.message) :
    Note.completed.message ∉ (Note.started :: steps ++ [last]).map Note.message := by
  intro hm
  obtain ⟨n, hn, he⟩ := List.mem_map.1 hm
  rcases List.mem_cons.1 hn with rfl | hn
  · exact absurd he (by decide +kernel)
  · rcases List.mem_append.1 hn with h | h
    · exact (Note.message_ne_of_isStep (hs n h)).2 he
    · obtain rfl := List.mem_singleton.1 h
      exact hl he

end ModernControls
