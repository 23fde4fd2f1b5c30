import ModernControls.CommandLine.Run
import ModernControls.Conversion.Engine
import ModernControls.Proofs.CommandLine.Lines

/-!
# Conversions as a command

The command for conversions does what an engine with the configuration in use does with the text of
the input. It succeeds if every one of its steps does, and then what it prints or writes is the
output of the engine. If it fails, whichever step it was, nothing is printed and no file is written;
only what was reported stays, and the log of the conversion with it.

**The mapping file (`Command.UsesFile`).** The file of the switch, else that of the variable, else
none; it is laid over the built-in tables, unless another variable says no to them
(`Command.StandsAlone`).

**Obtaining (`Command.Obtains`).** The configuration in use and the text of the input, which are
what the engine has to do with.

**Refining (`Command.Refines`).** What a command leaves, said in terms of the engine.

Results:
- `Command.active_ok_iff`: what the configuration in use is;
- `Command.activeMapping_ok_iff`, `Command.readInput_ok_iff`, `Command.convertText_ok_iff`,
  `Command.deliver_ok_iff`: when each of the steps succeeds, and with what;
- `Command.convertInput_ok_iff`, `Command.entries_convertInput`: their run;
- `Command.refines_of_run`: the law for lines of words.
-/
namespace ModernControls

/-- Whether a report is an entry of a log. -/
def Report.isEntry : Report → Bool
  | .entry .. => true
  | _ => false

/-- The log of a conversion, whether it was carried out or refused. -/
def Conversion.logOf : Except Refusal Conversion → List Note
  | .ok c => c.log
  | .error r => r.log

namespace Progress

variable {α β : Type} {step : Progress α} {next : α → Progress β}

/-- The entries of logs among the reports of a step. -/
def entries (step : Progress α) : List Report := step.1.filter Report.isEntry

theorem andThen_ok_iff {b : β} :
    (step.andThen next).2 = .ok b ↔ ∃ a, step.2 = .ok a ∧ (next a).2 = .ok b := by
  obtain ⟨reports, outcome⟩ := step
  cases outcome with
  | ok a =>
    constructor
    · intro h
      exact ⟨a, rfl, h⟩
    · rintro ⟨a', ha, h⟩
      obtain rfl := Except.ok.inj ha
      exact h
  | error e =>
    constructor
    · intro h
      cases h
    · rintro ⟨a, ha, -⟩
      cases ha

theorem entries_andThen_of_ok {a : α} (h : step.2 = .ok a) :
    (step.andThen next).entries = step.entries ++ (next a).entries := by
  unfold entries
  rw [reports_andThen h, List.filter_append]

theorem entries_andThen_of_error {e : Ending} (h : step.2 = .error e) :
    (step.andThen next).entries = step.entries := by
  obtain ⟨reports, outcome⟩ := step
  cases h
  rfl

/-- Steps that report no entries add none. -/
theorem entries_andThen (hnext : ∀ a, (next a).entries = []) :
    (step.andThen next).entries = step.entries := by
  cases h : step.2 with
  | ok a => rw [entries_andThen_of_ok h, hnext, List.append_nil]
  | error e => exact entries_andThen_of_error h

end Progress

namespace Command

open Progress

/-- The text of an input: the input as it is, or a file with its line breaks unified. -/
def inputOf (w : World) (source : Text) : Option Text :=
  if source = inputWord then some w.input
  else (w.read (FilePath.normalize source)).toOption.map Text.unifyBreaks

/-- Whether a configuration is that in use, and a text that of the input. -/
structure Obtains (w : World) (input : Text) (mappings : Option Text) (m : Mapping) (text : Text) :
    Prop where
  tables : Mapping.active w.read w.environment mappings none = .ok m
  input : inputOf w input = some text

/-- Whether an output can be delivered: a file that is named can be written. -/
def CanDeliver (w : World) : Option Text → Prop
  | none => True
  | some name => w.writeFault? (FilePath.normalize name) = none

/-- Whether what a command leaves is what the engine makes of the input. The command succeeds just
if all of its steps do, and it prints or writes the output of the engine then; otherwise it prints
and writes nothing. The entries that it shows are the log of the conversion, if this is asked for
and as soon as there is a conversion. -/
structure Refines (w : World) (input : Text) (output mappings : Option Text) (log : Bool)
    (code : Nat) (o : Outcome) : Prop where
  codes : code = 0 ∨ code = 1
  succeeds : code = 0 ↔ ∃ m text c, Obtains w input mappings m text
    ∧ (Engine.convert ⟨m, []⟩ text).2 = .ok c ∧ CanDeliver w output
  printed : code = 0 → output = none → ∀ m text c, Obtains w input mappings m text →
    (Engine.convert ⟨m, []⟩ text).2 = .ok c → o.printed = c.result.output ∧ o.file = none
  written : code = 0 → ∀ name, output = some name → ∀ m text c, Obtains w input mappings m text →
    (Engine.convert ⟨m, []⟩ text).2 = .ok c →
    o.printed = [] ∧ o.file = some (FilePath.normalize name, c.result.output)
  untouched : code = 1 → o.printed = [] ∧ o.file = none
  entries : ∀ m text, Obtains w input mappings m text → o.reports.filter Report.isEntry
    = if log then (Conversion.logOf (Engine.convert ⟨m, []⟩ text).2).map fun note =>
        .entry (showsTimes w) note.message else []
  silent : (∀ m text, ¬ Obtains w input mappings m text) → o.reports.filter Report.isEntry = []

variable {w : World} {input text : Text} {output mappings : Option Text} {log : Bool} {m : Mapping}
  {c : Converted} {d : Delivery} {o : Outcome} {code : Nat} {rank : Int} {words : List Text}

/-- What is obtained is converted in one way. -/
theorem Obtains.result_eq {m' : Mapping} {text' : Text} {c c' : Conversion}
    (h : Obtains w input mappings m text) (h' : Obtains w input mappings m' text')
    (hc : (Engine.convert ⟨m, []⟩ text).2 = .ok c)
    (hc' : (Engine.convert ⟨m', []⟩ text').2 = .ok c') : c = c' := by
  obtain rfl := Except.ok.inj (h.tables.symm.trans h'.tables)
  obtain rfl := Option.some.inj (h.input.symm.trans h'.input)
  exact Except.ok.inj (hc.symm.trans hc')

/-! ## The configuration in use -/

/-- The file whose tables are used, if there is one: that of the switch, as it is written, else that
of the variable, with the home directory that it may begin in. -/
inductive UsesFile (w : World) : Option Text → Option Text → Prop
  | switch (path : Text) : UsesFile w (some path) (some (FilePath.normalize path))
  | variable {path file : Text}
      (set : w.environment.values.get? "PACONVERT_MAPPINGS_FILE".toList = some path)
      (filled : path.isAllBlank = false) (known : w.environment.expand? path = some file) :
      UsesFile w none (some file)
  | neither (unset : ∀ path, w.environment.values.get? "PACONVERT_MAPPINGS_FILE".toList
      = some path → path.isAllBlank = true) : UsesFile w none none

/-- Whether a mapping file is used alone: the variable for that says no to the built-in tables. -/
def StandsAlone (w : World) : Prop :=
  ∃ word, w.environment.values.get? "PACONVERT_MERGE_MAPPINGS".toList = some word
    ∧ word.isAllBlank = false ∧ Setting.flagOf? word = some false

theorem mergeMappings_cases (w : World) :
    (Setting.mergeMappings.resolve w.environment none = some (.flag false) ∧ StandsAlone w)
      ∨ (Setting.mergeMappings.resolve w.environment none = some (.flag true) ∧ ¬StandsAlone w) := by
  have hname : Setting.mergeMappings.variableName = "PACONVERT_MERGE_MAPPINGS".toList := rfl
  have hdefault : Setting.mergeMappings.default = .flag true := rfl
  unfold Setting.resolve StandsAlone
  simp only [hname]
  cases w.environment.values.get? "PACONVERT_MERGE_MAPPINGS".toList with
  | none => simp [hdefault]
  | some word =>
    simp only [Option.some.injEq, exists_eq_left', Setting.valueOf, Setting.kind]
    cases word.isAllBlank with
    | true => simp [hdefault]
    | false =>
      cases Setting.flagOf? word with
      | none => simp [hdefault]
      | some value => cases value <;> simp

/-- The setting that a file is, or that there is none. -/
def fileSetting : Option Text → SettingValue
  | none => .unset
  | some file => .path file

/-- What the setting for the mapping file says is which one is used. -/
theorem mappingsFile_iff {value : SettingValue} :
    Setting.mappingsFile.resolve w.environment
        (mappings.map fun path => .path (FilePath.normalize path)) = some value
      ↔ ∃ file?, value = fileSetting file? ∧ UsesFile w mappings file? := by
  have hname : Setting.mappingsFile.variableName = "PACONVERT_MAPPINGS_FILE".toList := rfl
  constructor
  · intro h
    cases mappings with
    | some path => exact ⟨some _, (Option.some.inj h).symm, .switch path⟩
    | none =>
      simp only [Setting.resolve, hname, Option.map_none] at h
      split at h
      · next path hpath =>
        split at h
        · next hblank =>
          exact ⟨none, (Option.some.inj h).symm,
            .neither fun p hp => Option.some.inj (hpath.symm.trans hp) ▸ hblank⟩
        · next hblank =>
          obtain ⟨file, hfile, rfl⟩ := Option.map_eq_some_iff.1 h
          exact ⟨some file, rfl, .variable hpath (Bool.eq_false_iff.2 hblank) hfile⟩
      · next hunset =>
        exact ⟨none, (Option.some.inj h).symm, .neither fun p hp =>
          absurd (hunset.symm.trans hp) (Option.some_ne_none p).symm⟩
  · rintro ⟨file?, rfl, huses⟩
    cases huses with
    | switch path => rfl
    | «variable» set filled known =>
      simp only [Setting.resolve, hname, Option.map_none, set, filled, Bool.false_eq_true, if_false]
      exact congrArg (Option.map SettingValue.path) known
    | neither unset =>
      simp only [Setting.resolve, hname, Option.map_none]
      split
      · next path hpath => rw [if_pos (unset path hpath)]; rfl
      · rfl

/-- Which mapping file is used, and whether it is laid over the built-in tables. -/
theorem activeFile_ok_iff {found : Option (Text × Bool)} :
    Mapping.activeFile w.environment mappings none = .ok found
      ↔ (found = none ∧ UsesFile w mappings none)
        ∨ ∃ file merge, found = some (file, merge) ∧ UsesFile w mappings (some file)
          ∧ (merge = true ↔ ¬StandsAlone w) := by
  have hmerge : ∃ merge, Setting.mergeMappings.resolve w.environment none = some (.flag merge)
      ∧ (merge = true ↔ ¬StandsAlone w) := by
    rcases mergeMappings_cases w with ⟨h, halone⟩ | ⟨h, halone⟩
    · exact ⟨false, h, by simpa using halone⟩
    · exact ⟨true, h, by simpa using halone⟩
  obtain ⟨merge, hmerge, halone⟩ := hmerge
  unfold Mapping.activeFile
  simp only [Option.map_none, hmerge]
  constructor
  · intro h
    split at h
    · cases h
    · next file hfile =>
      obtain ⟨_ | _, hvalue, huses⟩ := mappingsFile_iff.1 hfile
      · cases hvalue
      · obtain rfl := SettingValue.path.inj hvalue
        exact .inr ⟨file, merge, (Except.ok.inj h).symm, huses, halone⟩
    · next value hnot hvalue =>
      obtain ⟨_ | file, rfl, huses⟩ := mappingsFile_iff.1 hvalue
      · exact .inl ⟨(Except.ok.inj h).symm, huses⟩
      · exact absurd rfl (hnot file)
  · rintro (⟨rfl, huses⟩ | ⟨file, merge', rfl, huses, halone'⟩)
    · rw [mappingsFile_iff.2 ⟨none, rfl, huses⟩]
      rfl
    · obtain rfl : merge = merge' := Bool.eq_iff_iff.2 (halone.trans halone'.symm)
      rw [mappingsFile_iff.2 ⟨some file, rfl, huses⟩]
      rfl

/-- A mapping file is loaded if it is read and is the text of a configuration. -/
theorem load_ok_iff {read : Mapping.FileReader} {file : Text} {merge : Bool} :
    Mapping.load read file merge = .ok m
      ↔ ∃ content own, read (FilePath.normalize file) = .ok content
        ∧ Mapping.ofText content.unifyBreaks = .ok own
        ∧ m = if merge then Mapping.builtIn.merged own else own := by
  unfold Mapping.load
  dsimp only
  cases read (FilePath.normalize file) with
  | error fault => simp
  | ok content =>
    constructor
    · intro h
      obtain ⟨own, hown, rfl⟩ := exists_of_map h
      exact ⟨content, own, rfl, hown, rfl⟩
    · rintro ⟨_, own, hread, hown, rfl⟩
      obtain rfl := Except.ok.inj hread
      exact congrArg (Except.map fun m => if merge then Mapping.builtIn.merged m else m) hown

/-- What the configuration in use is: the file of the switch counts more than that of the variable,
and this more than the built-in tables, over which a file is laid unless it stands alone. -/
theorem active_ok_iff : Mapping.active w.read w.environment mappings none = .ok m
    ↔ (UsesFile w mappings none ∧ m = .builtIn)
      ∨ ∃ file content own, UsesFile w mappings (some file)
        ∧ w.read (FilePath.normalize file) = .ok content
        ∧ Mapping.ofText content.unifyBreaks = .ok own
        ∧ (StandsAlone w ∧ m = own ∨ ¬StandsAlone w ∧ m = Mapping.builtIn.merged own) := by
  unfold Mapping.active
  constructor
  · intro h
    split at h
    · cases h
    · next hfile =>
      rcases activeFile_ok_iff.1 hfile with ⟨-, huses⟩ | ⟨_, _, hfound, -⟩
      · exact .inl ⟨huses, (Except.ok.inj h).symm⟩
      · cases hfound
    · next file merge hfile =>
      rcases activeFile_ok_iff.1 hfile with ⟨hfound, -⟩ | ⟨_, _, hfound, huses, halone⟩
      · cases hfound
      · cases hfound
        obtain ⟨content, own, hread, hown, rfl⟩ := load_ok_iff.1 h
        refine .inr ⟨file, content, own, huses, hread, hown, ?_⟩
        cases merge with
        | true => exact .inr ⟨halone.1 rfl, rfl⟩
        | false => exact .inl ⟨by simpa using halone, rfl⟩
  · rintro (⟨huses, rfl⟩ | ⟨file, content, own, huses, hread, hown, ⟨halone, rfl⟩ | ⟨halone, rfl⟩⟩)
    · rw [activeFile_ok_iff.2 (.inl ⟨rfl, huses⟩)]
    · rw [activeFile_ok_iff.2 (.inr ⟨file, false, rfl, huses, by simpa using halone⟩)]
      exact load_ok_iff.2 ⟨content, m, hread, hown, rfl⟩
    · rw [activeFile_ok_iff.2 (.inr ⟨file, true, rfl, huses, by simpa using halone⟩)]
      exact load_ok_iff.2 ⟨content, own, hread, hown, rfl⟩

/-! ## The configuration -/

theorem checked_ok_iff {α : Type} {found : Except Mapping.Error α} {a : α} :
    (checked found).2 = .ok a ↔ found = .ok a := by
  unfold checked
  cases found with
  | ok b => simp [done]
  | error e =>
    constructor
    · intro h
      dsimp only at h
      split at h <;> cases h
    · intro h
      cases h

theorem entries_checked {α : Type} (found : Except Mapping.Error α) :
    (checked found).entries = [] := by
  unfold checked
  split
  · rfl
  · split <;> rfl

theorem loadMapping_ok_iff (path : Option Text) :
    (loadMapping w path).2 = .ok m ↔ Mapping.active w.read w.environment path none = .ok m := by
  unfold loadMapping Mapping.active
  rw [andThen_ok_iff]
  simp only [checked_ok_iff]
  cases Mapping.activeFile w.environment path none with
  | error e => simp
  | ok found =>
    cases found with
    | none => simp [done]
    | some f => simp [andThen_ok_iff, checked_ok_iff]

theorem entries_loadMapping (path : Option Text) : (loadMapping w path).entries = [] := by
  unfold loadMapping
  rw [entries_andThen, entries_checked]
  intro file?
  split
  · rfl
  · rw [entries_andThen fun _ => rfl, entries_checked]

theorem activeMapping_ok_iff : (activeMapping w (mappings.map .text)).2 = .ok m
    ↔ Mapping.active w.read w.environment mappings none = .ok m := by
  cases mappings with
  | none => exact loadMapping_ok_iff none
  | some path => exact loadMapping_ok_iff (some path)

theorem entries_activeMapping : (activeMapping w (mappings.map .text)).entries = [] := by
  cases mappings with
  | none => exact entries_loadMapping none
  | some path => exact entries_loadMapping (some path)

/-! ## The input -/

theorem readInput_ok_iff : (readInput w input).2 = .ok text ↔ inputOf w input = some text := by
  unfold readInput inputOf
  split
  · simp [done]
  · dsimp only
    cases w.read (FilePath.normalize input) with
    | ok content => simp [done, Except.toOption]
    | error fault => simp [fail, Except.toOption]

theorem entries_readInput : (readInput w input).entries = [] := by
  unfold readInput
  split
  · rfl
  · dsimp only
    split <;> rfl

/-! ## The conversion -/

theorem convertText_ok_iff : (convertText w log m text).2 = .ok c
    ↔ ∃ conversion, (Engine.convert ⟨m, []⟩ text).2 = .ok conversion ∧ conversion.result = c := by
  show _ ↔ ∃ conversion, Conversion.convert m text = .ok conversion ∧ conversion.result = c
  unfold convertText
  cases Conversion.convert m text with
  | ok conversion =>
    constructor
    · intro h
      exact ⟨conversion, rfl, Except.ok.inj h⟩
    · rintro ⟨_, hc, rfl⟩
      obtain rfl := Except.ok.inj hc
      rfl
  | error r =>
    constructor
    · intro h
      dsimp only at h
      split at h <;> cases h
    · rintro ⟨_, hc, -⟩
      cases hc

theorem entries_noteReports (notes : List Note) :
    (noteReports notes).filter Report.isEntry = [] := by
  refine List.filter_eq_nil_iff.2 fun report hr => ?_
  obtain ⟨note, -, rfl⟩ := List.mem_map.1 hr
  simp [Report.isEntry]

theorem entries_entryReports (notes : List Note) :
    (entryReports w log notes).filter Report.isEntry = entryReports w log notes := by
  unfold entryReports
  refine List.filter_eq_self.2 fun report hr => ?_
  split at hr
  · obtain ⟨note, -, rfl⟩ := List.mem_map.1 hr
    rfl
  · cases hr

/-- A conversion that breaks off has no log and shows none. -/
theorem entries_convertText : (convertText w log m text).entries
    = entryReports w log (Conversion.logOf (Engine.convert ⟨m, []⟩ text).2) := by
  show _ = entryReports w log (Conversion.logOf (Conversion.convert m text))
  unfold convertText entries
  cases hconvert : Conversion.convert m text with
  | ok conversion =>
    dsimp only
    rw [List.filter_append, entries_noteReports, entries_entryReports]
    rfl
  | error r =>
    dsimp only
    split
    · next hnone =>
      have hlog : r.log = [] := by
        unfold Conversion.convert at hconvert
        split at hconvert
        · cases hconvert
        · split at hconvert
          · next hreport =>
            obtain rfl := Except.error.inj hconvert
            rw [hreport] at hnone
            cases hnone
          · obtain rfl := Except.error.inj hconvert
            rfl
      rw [Conversion.logOf, hlog]
      cases log <;> rfl
    · rw [Progress.after, List.filter_append, List.filter_append, entries_noteReports,
        List.filter_cons_of_neg (by simp [failedReport, Report.isEntry]), entries_entryReports]
      exact List.append_nil _

/-! ## The output -/

/-- What is left of a text that is delivered. -/
def delivered (output : Option Text) (text : Text) : Delivery :=
  match output with
  | none => { code := 0, printed := text }
  | some name => { code := 0, printed := [], file := some (FilePath.normalize name, text) }

theorem code_delivered (output : Option Text) (text : Text) : (delivered output text).code = 0 := by
  cases output <;> rfl

theorem deliver_ok_iff : (deliver w (output.map .text) text).2 = .ok d
    ↔ CanDeliver w output ∧ d = delivered output text := by
  cases output with
  | none => simp [deliver, done, CanDeliver, delivered, eq_comm]
  | some name =>
    unfold deliver CanDeliver delivered
    dsimp only [Option.map_some]
    cases w.writeFault? (FilePath.normalize name) with
    | none => simp [eq_comm]
    | some fault => simp [fail]

theorem entries_deliver : (deliver w (output.map .text) text).entries = [] := by
  cases output with
  | none => rfl
  | some name =>
    unfold deliver
    dsimp only [Option.map_some]
    split <;> rfl

/-! ## The run -/

/-- A conversion is delivered just if all of its steps succeed. -/
theorem convertInput_ok_iff :
    (convertInput w input (output.map .text) (mappings.map .text) log).2 = .ok d
      ↔ ∃ m text c, Obtains w input mappings m text ∧ (Engine.convert ⟨m, []⟩ text).2 = .ok c
        ∧ CanDeliver w output ∧ d = delivered output c.result.output := by
  unfold convertInput
  constructor
  · intro h
    obtain ⟨m, htables, h⟩ := andThen_ok_iff.1 h
    obtain ⟨text, hinput, h⟩ := andThen_ok_iff.1 h
    obtain ⟨result, hconvert, h⟩ := andThen_ok_iff.1 h
    obtain ⟨delivery, hdeliver, h⟩ := andThen_ok_iff.1 h
    obtain rfl := Except.ok.inj h
    obtain ⟨c, hc, rfl⟩ := convertText_ok_iff.1 hconvert
    obtain ⟨hcan, hd⟩ := deliver_ok_iff.1 hdeliver
    exact ⟨m, text, c, ⟨activeMapping_ok_iff.1 htables, readInput_ok_iff.1 hinput⟩, hc, hcan, hd⟩
  · rintro ⟨m, text, c, hobtains, hc, hcan, hd⟩
    refine andThen_ok_iff.2 ⟨m, activeMapping_ok_iff.2 hobtains.tables, ?_⟩
    refine andThen_ok_iff.2 ⟨text, readInput_ok_iff.2 hobtains.input, ?_⟩
    refine andThen_ok_iff.2 ⟨c.result, convertText_ok_iff.2 ⟨c, hc, rfl⟩, ?_⟩
    exact andThen_ok_iff.2 ⟨d, deliver_ok_iff.2 ⟨hcan, hd⟩, rfl⟩

/-- As soon as there is a conversion, the entries are those of its log. -/
theorem entries_convertInput (h : Obtains w input mappings m text) :
    (convertInput w input (output.map .text) (mappings.map .text) log).entries
      = entryReports w log (Conversion.logOf (Engine.convert ⟨m, []⟩ text).2) := by
  unfold convertInput
  rw [entries_andThen_of_ok (activeMapping_ok_iff.2 h.tables), entries_activeMapping,
    entries_andThen_of_ok (readInput_ok_iff.2 h.input), entries_readInput, List.nil_append,
    List.nil_append, ← entries_convertText]
  refine entries_andThen fun c => ?_
  rw [entries_andThen fun _ => rfl, entries_deliver]

/-- Without a conversion there are no entries. -/
theorem entries_convertInput_of_not (h : ∀ m text, ¬ Obtains w input mappings m text) :
    (convertInput w input (output.map .text) (mappings.map .text) log).entries = [] := by
  unfold convertInput
  cases htables : (activeMapping w (mappings.map .text)).2 with
  | error e => rw [entries_andThen_of_error htables, entries_activeMapping]
  | ok m =>
    rw [entries_andThen_of_ok htables, entries_activeMapping, List.nil_append]
    cases hinput : (readInput w input).2 with
    | error e => rw [entries_andThen_of_error hinput, entries_readInput]
    | ok text =>
      exact absurd ⟨activeMapping_ok_iff.1 htables, readInput_ok_iff.1 hinput⟩ (h m text)

/-! ## Lines of words -/

/-- A command that returns a code has delivered something, or failed and left nothing. -/
theorem outcome_cases {progress : Progress Delivery} (h : Outcome.ofProgress rank progress = .ok o)
    (hexit : o.exit = .returned code) :
    (∃ d, progress.2 = .ok d ∧ code = d.code ∧ o.printed = d.printed ∧ o.file = d.file)
      ∨ (∀ d, progress.2 ≠ .ok d) ∧ code = 1 ∧ o.printed = [] ∧ o.file = none := by
  unfold Outcome.ofProgress at h
  dsimp only at h
  split at h
  · next d hd =>
    obtain rfl := Except.ok.inj h
    obtain rfl := Exit.returned.inj hexit
    exact .inl ⟨d, hd, rfl, rfl, rfl⟩
  · next hfailed =>
    obtain rfl := Except.ok.inj h
    obtain rfl := Exit.returned.inj hexit
    refine .inr ⟨?_, rfl, rfl, rfl⟩
    intro d hd
    rw [hfailed] at hd
    cases hd
  · cases h

/-- Entries are shown at every rank. -/
theorem entries_ofProgress {progress : Progress Delivery}
    (h : Outcome.ofProgress rank progress = .ok o) :
    o.reports.filter Report.isEntry = progress.entries := by
  have hreports : o.reports = progress.1.filter (Report.isShown rank) := by
    unfold Outcome.ofProgress at h
    dsimp only at h
    split at h
    · obtain rfl := Except.ok.inj h
      rfl
    · obtain rfl := Except.ok.inj h
      rfl
    · cases h
  rw [hreports, List.filter_filter]
  refine List.filter_congr fun report _ => ?_
  cases report with
  | entry times message => rfl
  | _ => rfl

/-- A line that calls for a conversion and returns a code has come to it. -/
theorem exists_ofProgress (h : ConvertLine words input output mappings log)
    (hrun : run w words = .ok o) (hexit : o.exit = .returned code) :
    ∃ rank, Outcome.ofProgress rank
      (convertInput w input (output.map .text) (mappings.map .text) log) = .ok o := by
  unfold run at hrun
  split at hrun
  · next stop _ =>
    obtain rfl := Except.ok.inj hrun
    cases stop <;> cases hexit
  · next invocation hparse =>
    split at hrun
    · cases hrun
    · next rank _ =>
      rw [parse_convertLine h hparse] at hrun
      exact ⟨rank, hrun⟩

/-- The command for conversions refines the engine: whatever files, variables and input it finds,
if a line that calls for a conversion returns a code, it leaves what the engine makes of the
input. -/
theorem refines_of_run (h : ConvertLine words input output mappings log)
    (hrun : run w words = .ok o) (hexit : o.exit = .returned code) :
    Refines w input output mappings log code o := by
  obtain ⟨rank, hprogress⟩ := exists_ofProgress h hrun hexit
  have hentries := entries_ofProgress hprogress
  rcases outcome_cases hprogress hexit with ⟨d, hd, hcode, hleft⟩ | ⟨hnone, hcode, hleft⟩
  · obtain ⟨m, text, c, hobtains, hc, hcan, rfl⟩ := convertInput_ok_iff.1 hd
    have hzero : code = 0 := hcode.trans (code_delivered output _)
    constructor
    case codes => exact .inl hzero
    case succeeds => exact ⟨fun _ => ⟨m, text, c, hobtains, hc, hcan⟩, fun _ => hzero⟩
    case printed =>
      rintro - rfl m' text' c' hobtains' hc'
      obtain rfl := hobtains.result_eq hobtains' hc hc'
      exact hleft
    case written =>
      rintro - name rfl m' text' c' hobtains' hc'
      obtain rfl := hobtains.result_eq hobtains' hc hc'
      exact hleft
    case untouched => exact fun hone => absurd (hzero.symm.trans hone) Nat.zero_ne_one
    case entries => exact fun m text hobtains => hentries.trans (entries_convertInput hobtains)
    case silent => exact fun hnot => hentries.trans (entries_convertInput_of_not hnot)
  · have hne : code ≠ 0 := fun hzero => Nat.one_ne_zero (hcode.symm.trans hzero)
    constructor
    case codes => exact .inr hcode
    case succeeds =>
      refine ⟨fun hzero => absurd hzero hne, ?_⟩
      rintro ⟨m, text, c, hobtains, hc, hcan⟩
      exact absurd (convertInput_ok_iff.2 ⟨m, text, c, hobtains, hc, hcan, rfl⟩) (hnone _)
    case printed => exact fun hzero => absurd hzero hne
    case written => exact fun hzero => absurd hzero hne
    case untouched => exact fun _ => hleft
    case entries => exact fun m text hobtains => hentries.trans (entries_convertInput hobtains)
    case silent => exact fun hnot => hentries.trans (entries_convertInput_of_not hnot)

/-- A world with a label and with a mapping file that is used alone. -/
def labelWorld : World where
  read path :=
    if path = "label.yaml".toList then .ok "- L:\n    Control: Label@2.5\n".toList
    else if path = "tables.json".toList then
      .ok "\x7b\"controlTypes\": \x7b\"Label\": \"Text@1\"\x7d, \"properties\": \x7b\x7d\x7d".toList
    else .error .missing
  writeFault? _ := none
  environment := { values := [("PACONVERT_MERGE_MAPPINGS".toList, "no".toList)] }
  input := []

/-- The words of a conversion with all that a line can name. -/
def labelWords : List Text :=
  "convert".toList :: "./label.yaml".toList
    :: optionWords (some "out.yaml".toList) (some "tables.json".toList) true

theorem refines_of_run_label :
    ConvertLine labelWords "./label.yaml".toList (some "out.yaml".toList)
        (some "tables.json".toList) true
      ∧ ∃ o, run labelWorld labelWords = .ok o ∧ o.exit = .returned 0
        ∧ Refines labelWorld "./label.yaml".toList (some "out.yaml".toList)
          (some "tables.json".toList) true 0 o := by
  have hline : ConvertLine labelWords "./label.yaml".toList (some "out.yaml".toList)
      (some "tables.json".toList) true := .written (by decide) _ _ _
  have hexit : (run labelWorld labelWords).toOption.map (·.exit) = some (.returned 0) := by
    decide +kernel
  obtain ⟨o, hrun, hreturned⟩ := Option.map_eq_some_iff.1 hexit
  have h : run labelWorld labelWords = .ok o := eq_ok_of_toOption hrun
  exact ⟨hline, o, h, hreturned, refines_of_run hline h hreturned⟩

end Command

end ModernControls
