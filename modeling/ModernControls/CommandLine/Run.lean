import ModernControls.CommandLine.Command
import ModernControls.CommandLine.Report
import ModernControls.Conversion.Convert
import ModernControls.Conversion.Samples
import ModernControls.Control.Scan
import ModernControls.Mapping.Loading

/-!
# Running commands

What a command does in a world of files, variables and input: the text it prints, the file it
writes, what it reports, and how it ends. The mapping tables come before the input, and the input
before the output; what has been reported until a failure stays reported.

Results:
- `reports_andThen`: a later step reports after an earlier one.
-/

namespace ModernControls

/-- What a command finds: files to read, faults of files to write, variables, and an input. -/
structure World where
  read : Mapping.FileReader
  writeFault? : Text → Option FileFault
  environment : Environment
  input : Text

/-- Why a command breaks off without a report of its own. -/
inductive Crash
  | conversion (error : Control.Error)
  | mapping (error : Mapping.Error)
  | longInteger
  | noValue (switch : Switch)
  deriving DecidableEq

/-- Why a step of a command goes no further: it has reported the failure, or it broke off. -/
inductive Ending
  | failed
  | crashed (crash : Crash)
  deriving DecidableEq

/-- What is reported on the way to the result of a step. -/
abbrev Progress (α : Type) := List Report × Except Ending α

namespace Progress

variable {α β : Type}

/-- A step that reports nothing. -/
def done (a : α) : Progress α := ([], .ok a)

/-- A failure, which is reported. -/
def fail (message : Text) : Progress α :=
  ([.logged Logger.commandLine .error message], .error .failed)

/-- A step that breaks off. -/
def crash (c : Crash) : Progress α := ([], .error (.crashed c))

/-- A step after some reports. -/
def after (reports : List Report) (step : Progress α) : Progress α := (reports ++ step.1, step.2)

/-- A step that goes on from the result of another. -/
def andThen (step : Progress α) (next : α → Progress β) : Progress β :=
  match step with
  | (reports, .ok a) => (next a).after reports
  | (reports, .error e) => (reports, .error e)

theorem reports_andThen {step : Progress α} {a : α} (h : step.2 = .ok a) (next : α → Progress β) :
    (step.andThen next).1 = step.1 ++ (next a).1 := by
  obtain ⟨reports, result⟩ := step
  cases h
  rfl

end Progress

/-- What a command leaves: its code, the text it prints, and the file it writes. -/
structure Delivery where
  code : Nat
  printed : Text
  file : Option (Text × Text) := none
  deriving DecidableEq, Repr

namespace Command

/-- The word that stands for the input instead of a file. -/
def inputWord : Text := ['-']

/-- The report on a file that is not read or written. -/
def unreadable (path : Text) (fault : FileFault) : Text :=
  "Cannot read input: ".toList ++ fault.message path

/-- The text of the input, as it is, or of a file, with its line breaks unified.
mirrors `_read_input` (main 26-29) -/
def readInput (w : World) (source : Text) : Progress Text :=
  if source = inputWord then .done w.input
  else
    let path := FilePath.normalize source
    match w.read path with
    | .ok text => .done text.unifyBreaks
    | .error fault => .fail (unreadable path fault)

/-- What is found of a configuration, or the report on why there is none.
mirrors `main` (main 227-231) -/
def checked {α : Type} (found : Except Mapping.Error α) : Progress α :=
  match found with
  | .ok a => .done a
  | .error e =>
    match e.report? with
    | some report => .fail report
    | none => .crash (.mapping e)

/-- The report on a mapping file that was loaded. -/
def loadedReport (path : Text) (merge : Bool) : Report :=
  .logged Logger.mapping .info
    ("Loaded mappings from ".toList ++ path ++ " (merge=".toList ++ Yaml.Tree.shownBool merge
      ++ [')'])

/-- The configuration in use, with a mapping file if one is named.
mirrors `get_mappings` (config.lib 192-211) and `load_mappings` (mapping.lib 231-253) -/
def loadMapping (w : World) (path : Option Text) : Progress Mapping :=
  (checked (Mapping.activeFile w.environment path none)).andThen fun file? =>
    match file? with
    | none => .done .builtIn
    | some (file, merge) =>
      (checked (Mapping.load w.read file merge)).andThen fun m =>
        ([loadedReport file merge], .ok m)

/-- The configuration in use, with the value of the switch for the mapping file. -/
def activeMapping (w : World) (mappings : Option SwitchValue) : Progress Mapping :=
  match mappings with
  | none => loadMapping w none
  | some (.text path) => loadMapping w (some path)
  | some .void => .crash (.noValue .mappings)

/-- A text printed, or written to the file that is named.
mirrors `_write_output` (main 32-37) -/
def deliver (w : World) (output : Option SwitchValue) (text : Text) : Progress Delivery :=
  match output with
  | none => .done { code := 0, printed := text }
  | some .void => .crash (.noValue .output)
  | some (.text name) =>
    let path := FilePath.normalize name
    match w.writeFault? path with
    | some fault => .fail (unreadable path fault)
    | none =>
      ([.logged Logger.commandLine .info ("Saved to ".toList ++ path)],
        .ok { code := 0, printed := [], file := some (path, text) })

/-- Whether the entries of a log are shown with their times. -/
def showsTimes (w : World) : Bool :=
  Setting.logTimestamps.resolve w.environment none = some (.flag true)

/-- The notes of a conversion as records. -/
def noteReports (notes : List Note) : List Report :=
  notes.map fun note => .logged Logger.notes .debug note.message

/-- The notes of a conversion as entries of its log, if this is asked for. -/
def entryReports (w : World) (log : Bool) (notes : List Note) : List Report :=
  if log then notes.map fun note => .entry (showsTimes w) note.message else []

/-- The report on a conversion that failed. -/
def failedReport (report : Text) : Report :=
  .logged Logger.engine .info ("Conversion failed: ".toList ++ report)

/-- A text converted.
mirrors `cmd_convert` (main 50-56) -/
def convertText (w : World) (log : Bool) (m : Mapping) (text : Text) : Progress Converted :=
  match Conversion.convert m text with
  | .ok c => (noteReports c.log ++ entryReports w log c.log, .ok c.result)
  | .error r =>
    match Conversion.loggedReport? r.error with
    | none => .crash (.conversion r.error)
    | some report =>
      (Progress.fail report).after
        (noteReports r.log ++ failedReport report :: entryReports w log r.log)

/-- The report on a control that was converted. -/
def convertedReport (c : Converted) : Report :=
  .logged Logger.commandLine .info
    ("Converted ".toList ++ c.classicType ++ " -> ".toList ++ c.modernType)

/-- A text converted and delivered.
mirrors `cmd_convert` (main 45-60) -/
def convertInput (w : World) (input : Text) (output mappings : Option SwitchValue) (log : Bool) :
    Progress Delivery :=
  (activeMapping w mappings).andThen fun m =>
    (readInput w input).andThen fun text =>
      (convertText w log m text).andThen fun c =>
        (deliver w output c.output).andThen fun delivery => ([convertedReport c], .ok delivery)

/-- Whether a text looks like a document.
mirrors `cmd_validate` (main 63-69) -/
def validateText (text : Text) : Progress Delivery :=
  match Document.check text with
  | .error b => .crash (.conversion (.broken b))
  | .ok none => .done { code := 0, printed := "valid\n".toList }
  | .ok (some report) =>
    ([.logged Logger.document .warning ("YAML validation failed: ".toList ++ report)],
      .ok { code := 1, printed := "invalid\n".toList })

/-- The lines on a declared control. -/
def infoLines (d : Declaration) : Text :=
  "Name:    ".toList ++ d.name ++ "\nType:    ".toList ++ d.bareType ++ "\nVersion: ".toList
    ++ d.version.getD ['-'] ++ ['\n']

/-- What a text declares.
mirrors `cmd_info` (main 72-82) -/
def infoOf (text : Text) : Progress Delivery :=
  match Declaration.scan text with
  | some d => .done { code := 0, printed := infoLines d }
  | none => .fail InputFault.noDeclaration.message

/-- A configuration as the text of a mapping file.
mirrors `cmd_mappings_export` (main 85-89) -/
def exportText (m : Mapping) : Progress Text :=
  match m.toText (some Mapping.exportIndent) with
  | some text => .done (text ++ ['\n'])
  | none => .crash .longInteger

/-- The line on a mapping file that is right.
mirrors `cmd_mappings_check` (main 92-100) -/
def checkLine (m : Mapping) : Text :=
  "OK: ".toList ++ Text.ofNat m.controlTypes.length ++ " control types, ".toList
    ++ Text.ofNat m.properties.length ++ " property tables, ".toList
    ++ Text.ofNat m.defaults.length ++ " default sets\n".toList

/-- A sample of a kind.
mirrors `cmd_sample` (main 103-110) -/
def sampleOf (kind : Text) : Progress Delivery :=
  match Sample.find? kind with
  | some text => .done { code := 0, printed := text }
  | none => .fail (Sample.unknownMessage kind)

/-- A command carried out. -/
def perform (w : World) : Command → Progress Delivery
  | .convert input output mappings log => convertInput w input output mappings log
  | .validate input => (readInput w input).andThen validateText
  | .showInfo input => (readInput w input).andThen infoOf
  | .exportMappings output mappings =>
    (activeMapping w mappings).andThen fun m => (exportText m).andThen (deliver w output)
  | .checkMappings input =>
    (readInput w input).andThen fun text =>
      (checked (Mapping.ofText text)).andThen fun m =>
        .done { code := 0, printed := checkLine m }
  | .sample kind => sampleOf kind

/-- The file that an input comes from, if it comes from one. -/
def inputFile (source : Text) : List Text :=
  if source = inputWord then [] else [FilePath.normalize source]

/-- The mapping file that a command reads, if it reads one. -/
def mappingFile (e : Environment) (mappings : Option SwitchValue) : List Text :=
  let path := match mappings with
    | some (.text path) => some path
    | _ => none
  match Mapping.activeFile e path none with
  | .ok (some (file, _)) => [file]
  | _ => []

/-- The files that a command may read. -/
def files (e : Environment) : Command → List Text
  | .convert input _ mappings _ => mappingFile e mappings ++ inputFile input
  | .validate input => inputFile input
  | .showInfo input => inputFile input
  | .exportMappings _ mappings => mappingFile e mappings
  | .checkMappings input => inputFile input
  | .sample _ => []

/-- Whether a command reads the input. -/
def readsInput : Command → Bool
  | .convert input _ _ _ => input = inputWord
  | .validate input => input = inputWord
  | .showInfo input => input = inputWord
  | .exportMappings _ _ => false
  | .checkMappings input => input = inputWord
  | .sample _ => false

end Command

/-- How a line of words ends: a command returns a code, or the words end everything with one. -/
inductive Exit
  | returned (code : Nat)
  | ended (code : Nat)
  deriving DecidableEq, Repr

/-- What a line of words leads to. -/
structure Outcome where
  exit : Exit
  printed : Text
  reports : List Report
  file : Option (Text × Text) := none
  deriving DecidableEq, Repr

namespace Outcome

/-- The usage of a grammar. -/
def usage (g : Grammar) : Text := "usage: ".toList ++ g.title ++ ['\n']

/-- The usage of a grammar with its switches. -/
def help (g : Grammar) : Text :=
  usage g ++ "\noptions:\n".toList
    ++ g.switches.flatMap fun (name, _) => ' ' :: ' ' :: name ++ ['\n']

/-- The outcome of words that ask for nothing that could be carried out. -/
def ofStop : Stop → Outcome
  | .help g => { exit := .ended 0, printed := help g, reports := [] }
  | .misuse g reason =>
    { exit := .ended 2, printed := [],
      reports := [.usage (usage g ++ "paconvert: error: ".toList ++ reason.message ++ ['\n'])] }

/-- The outcome of a command whose reports are shown at a rank. -/
def ofProgress (rank : Int) (progress : Progress Delivery) : Except Crash Outcome :=
  let reports := progress.1.filter (Report.isShown rank)
  match progress.2 with
  | .ok d =>
    .ok { exit := .returned d.code, printed := d.printed, reports := reports, file := d.file }
  | .error .failed => .ok { exit := .returned 1, printed := [], reports := reports }
  | .error (.crashed crash) => .error crash

/-- What is reported, as text. -/
def reported (o : Outcome) (stamp : Stamp) : Text := o.reports.flatMap (Report.text stamp)

end Outcome

/-- The rank at which reports are shown, unless the switch for it stands without a value.
mirrors `main` (main 220-221) -/
def Invocation.rank? (e : Environment) (given : Option SwitchValue) : Option Int :=
  let rankFor (given : Option SettingValue) : Int :=
    match Setting.logLevel.resolve e given with
    | some (.text name) => Level.rankOf name Level.standardRank
    | _ => Level.standardRank
  match given with
  | none => some (rankFor none)
  | some (.text name) => some (rankFor (some (.text name)))
  | some .void => none

/-- The outcome of a line of words in a world.
mirrors `main` (main 213-234) -/
def run (w : World) (words : List Text) : Except Crash Outcome :=
  match Invocation.parse words with
  | .error stop => .ok (Outcome.ofStop stop)
  | .ok invocation =>
    match Invocation.rank? w.environment invocation.logLevel with
    | none => .error (.noValue .logLevel)
    | some rank =>
      match invocation.command with
      | none =>
        .ok { exit := .returned 1, printed := Outcome.help Command.grammar, reports := [] }
      | some command => Outcome.ofProgress rank (command.perform w)

end ModernControls
