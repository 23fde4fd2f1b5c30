import ModernControls.CommandLine.Words
import ModernControls.Files

/-!
# Commands

The commands of the command line with the grammars of their words, and what a line of words calls
for: a command at a level of reports.
-/

namespace ModernControls

/-- What can be asked for.
mirrors the commands of `build_parser` (main 118-210) -/
inductive Command
  | convert (input : Text) (output mappings : Option SwitchValue) (log : Bool)
  | validate (input : Text)
  | showInfo (input : Text)
  | exportMappings (output mappings : Option SwitchValue)
  | checkMappings (input : Text)
  | sample (kind : Text)
  deriving DecidableEq, Repr

/-- The names of commands. -/
inductive CommandName
  | convert
  | validate
  | info
  | mappings
  | sample
  deriving DecidableEq, Repr

/-- The names of the commands on mapping tables. -/
inductive MappingsCommandName
  | export
  | check
  deriving DecidableEq, Repr

namespace Command

/-- The names of the switch for help. -/
def helpSwitches : Table Switch := [("-h".toList, .help), ("--help".toList, .help)]

/-- The names of the switch for the output file. -/
def outputSwitches : Table Switch := [("--output".toList, .output), ("-o".toList, .output)]

/-- The names of the switch for the mapping file. -/
def mappingsSwitches : Table Switch := [("--mappings".toList, .mappings), ("-m".toList, .mappings)]

/-- The grammar of the whole line.
mirrors `build_parser` (main 118-128) -/
def grammar : Grammar :=
  ⟨"paconvert [-h] [--log-level LOG_LEVEL] convert|validate|info|mappings|sample ...".toList,
    helpSwitches ++ [("--log-level".toList, .logLevel)], some .command⟩

/-- The grammar of a conversion. -/
def convertGrammar : Grammar :=
  ⟨"paconvert convert [-h] [--output OUTPUT] [--mappings MAPPINGS] [--log] input".toList,
    helpSwitches ++ outputSwitches ++ mappingsSwitches ++ [("--log".toList, .log)], some .needed⟩

/-- The grammar of a validation. -/
def validateGrammar : Grammar :=
  ⟨"paconvert validate [-h] input".toList, helpSwitches, some .needed⟩

/-- The grammar of a look at a control. -/
def infoGrammar : Grammar := ⟨"paconvert info [-h] input".toList, helpSwitches, some .needed⟩

/-- The grammar of the commands on mapping tables. -/
def mappingsGrammar : Grammar :=
  ⟨"paconvert mappings [-h] export|check ...".toList, helpSwitches, some .command⟩

/-- The grammar of an export of mapping tables. -/
def exportGrammar : Grammar :=
  ⟨"paconvert mappings export [-h] [--output OUTPUT] [--mappings MAPPINGS]".toList,
    helpSwitches ++ outputSwitches ++ mappingsSwitches, none⟩

/-- The grammar of a check of a mapping file. -/
def checkGrammar : Grammar :=
  ⟨"paconvert mappings check [-h] file".toList, helpSwitches, some .needed⟩

/-- The grammar of a sample. -/
def sampleGrammar : Grammar :=
  ⟨"paconvert sample [-h] [kind]".toList, helpSwitches, some .optional⟩

/-- The commands by their names. -/
def names : Table CommandName :=
  [("convert".toList, .convert), ("validate".toList, .validate), ("info".toList, .info),
    ("mappings".toList, .mappings), ("sample".toList, .sample)]

/-- The commands on mapping tables by their names. -/
def mappingsNames : Table MappingsCommandName :=
  [("export".toList, .export), ("check".toList, .check)]

/-- A command that has been read, if there is one, and the words that belong nowhere. -/
abbrev Parsed := Option Command × List Text

/-- The command that words stand for. -/
def ofRead (g : Grammar) (words : List Text) (command : Given → Text → Command) :
    Except Stop Parsed :=
  (g.read words).map fun r => (some (command r.given ((r.taken.getD []).headD [])), r.others)

/-- The kind of sample that is meant if none is named. -/
def standardKind : Text := "button".toList

/-- The command that the words at the place of a grammar stand for; a grammar whose words name no
command calls for none. -/
def ofTaken {α : Type} (g : Grammar) (names : Table α) (r : WordsRead)
    (parse : α → List Text → Except Stop Parsed) : Except Stop Parsed :=
  match r.taken with
  | none => .ok (none, r.others)
  | some [] => .ok (none, r.others)
  | some (name :: words) =>
    match names.get? name with
    | none => .error (.misuse g (.unknownCommand name))
    | some command =>
      (parse command words).map fun (command, others) => (command, others ++ r.others)

/-- The command on mapping tables that words stand for. -/
def parseMappings (name : MappingsCommandName) (words : List Text) : Except Stop Parsed :=
  match name with
  | .export => ofRead exportGrammar words fun given _ => .exportMappings given.output given.mappings
  | .check => ofRead checkGrammar words fun _ file => .checkMappings file

/-- The command that words after its name stand for. -/
def parseNamed (name : CommandName) (words : List Text) : Except Stop Parsed :=
  match name with
  | .convert => ofRead convertGrammar words fun given input =>
      .convert input given.output given.mappings given.log
  | .validate => ofRead validateGrammar words fun _ input => .validate input
  | .info => ofRead infoGrammar words fun _ input => .showInfo input
  | .mappings =>
    match mappingsGrammar.read words with
    | .error stop => .error stop
    | .ok r => ofTaken mappingsGrammar mappingsNames r parseMappings
  | .sample =>
    (sampleGrammar.read words).map fun r =>
      (some (.sample ((r.taken.getD []).headD standardKind)), r.others)

end Command

/-- What a line of words calls for: a command, if it names one, and a level of reports. -/
structure Invocation where
  logLevel : Option SwitchValue
  command : Option Command
  deriving DecidableEq, Repr

/-- What a line of words calls for; every word must belong somewhere.
mirrors `main` (main 217-218) -/
def Invocation.parse (words : List Text) : Except Stop Invocation :=
  match Command.grammar.read words with
  | .error stop => .error stop
  | .ok r =>
    match Command.ofTaken Command.grammar Command.names r Command.parseNamed with
    | .error stop => .error stop
    | .ok (command, []) => .ok ⟨r.given.logLevel, command⟩
    | .ok (_, others) => .error (.misuse Command.grammar (.unknownWords others))

end ModernControls
