import ModernControls.Environment
import ModernControls.Text.Blank

/-!
# Settings

What can be set by variables of the environment: how much is logged and how, and which mapping file
is used and whether it is laid over the built-in tables. A value that is given directly counts more
than the environment, and the environment more than the default.
-/

namespace ModernControls

/-- The settings.
mirrors `EnvVar` (config.lib 48-90) -/
inductive Setting
  | logLevel
  | logTimestamps
  | mappingsFile
  | mergeMappings
  deriving DecidableEq, Repr

/-- The kinds of values of settings. -/
inductive SettingKind
  | text
  | flag
  | path
  deriving DecidableEq, Repr

/-- The value of a setting. -/
inductive SettingValue
  | unset
  | text (value : Text)
  | flag (value : Bool)
  | path (value : Text)
  deriving DecidableEq, Repr

/-- The name of a kind of values. -/
def SettingKind.name : SettingKind → Text
  | .text => "str".toList
  | .flag => "bool".toList
  | .path => "Path".toList

namespace Setting

/-- All settings in order. -/
def all : List Setting := [.logLevel, .logTimestamps, .mappingsFile, .mergeMappings]

/-- The name of the variable for a setting. -/
def variableName : Setting → Text
  | .logLevel => "PACONVERT_LOG_LEVEL".toList
  | .logTimestamps => "PACONVERT_LOG_TIMESTAMPS".toList
  | .mappingsFile => "PACONVERT_MAPPINGS_FILE".toList
  | .mergeMappings => "PACONVERT_MERGE_MAPPINGS".toList

/-- The value of a setting that nobody set. -/
def default : Setting → SettingValue
  | .logLevel => .text "WARNING".toList
  | .logTimestamps => .flag true
  | .mappingsFile => .unset
  | .mergeMappings => .flag true

/-- The kind of the values of a setting. -/
def kind : Setting → SettingKind
  | .logLevel => .text
  | .logTimestamps => .flag
  | .mappingsFile => .path
  | .mergeMappings => .flag

/-- What a setting is for. -/
def description : Setting → Text
  | .logLevel => "Level for the paconvert logger (DEBUG, INFO, WARNING, ...)".toList
  | .logTimestamps => "Prefix printed conversion log entries with [HH:MM:SS]".toList
  | .mappingsFile => "JSON mapping file loaded instead of the built-in tables".toList
  | .mergeMappings => "Layer the mapping file over the built-in tables".toList

/-- The group of a setting. -/
def category : Setting → Text
  | .logLevel => "logging".toList
  | .logTimestamps => "logging".toList
  | .mappingsFile => "mappings".toList
  | .mergeMappings => "mappings".toList

/-- The setting of a variable. -/
def ofVariable? (name : Text) : Option Setting := all.find? fun s => s.variableName = name

/-- The settings of a group, or all.
mirrors `list_environment_variables` (config.lib 174-184) -/
def ofCategory (category : Option Text) : List Setting :=
  match category with
  | none => all
  | some category => all.filter fun s => s.category = category

/-- The truth value that a word stands for.
mirrors `_parse_bool` (config.lib 98-109) -/
def flagOf? (word : Text) : Option Bool :=
  let word := word.lowered.trim
  if ["true".toList, ['1'], "yes".toList, "on".toList].contains word then some true
  else if ["false".toList, ['0'], "no".toList, "off".toList].contains word then some false
  else none

/-- The value that the text of a variable stands for; a text that stands for none gives the
default. There is no value for a path in a home directory that is not known.
mirrors `_convert_value` (config.lib 112-130) -/
def valueOf (e : Environment) (s : Setting) (text : Text) : Option SettingValue :=
  match s.kind with
  | .text => some (.text text)
  | .flag =>
    match flagOf? text with
    | some value => some (.flag value)
    | none => some s.default
  | .path => (e.expand? text).map .path

/-- The value of a setting: the one that is given, else that of its variable unless this is blank,
else the default.
mirrors `get_environment` (config.lib 148-166) -/
def resolve (e : Environment) (s : Setting) (given : Option SettingValue) : Option SettingValue :=
  match given with
  | some value => some value
  | none =>
    match e.values.get? s.variableName with
    | some text => if text.isAllBlank then some s.default else s.valueOf e text
    | none => some s.default

end Setting

end ModernControls
