import ModernControls.Mapping.BuiltIn
import ModernControls.Mapping.Reading
import ModernControls.Settings

/-!
# Loading mapping configurations

The configuration in use: the built-in one, a mapping file laid over it, or the file alone. The file
is the one that is named, else the one that the environment names.
-/

namespace ModernControls.Mapping

/-- How files are read. -/
abbrev FileReader := Text → Except FileFault Text

/-- The configuration of a file, alone or laid over the built-in one.
mirrors `load_mappings` (mapping.lib 231-253) -/
def load (read : FileReader) (path : Text) (merge : Bool) : Except Error Mapping :=
  let file := FilePath.normalize path
  match read file with
  | .error fault => .error (.unreadableFile file (fault.message file))
  | .ok content =>
    (ofText content.unifyBreaks).map fun m => if merge then builtIn.merged m else m

/-- The mapping file in use and whether it is laid over the built-in configuration; none if there
is no file.
mirrors `get_mappings` (config.lib 203-211) -/
def activeFile (e : Environment) (path : Option Text) (merge : Option Bool) :
    Except Error (Option (Text × Bool)) :=
  let given := path.map fun p => SettingValue.path (FilePath.normalize p)
  match Setting.mappingsFile.resolve e given with
  | none => .error .noHome
  | some (.path file) =>
    match Setting.mergeMappings.resolve e (merge.map .flag) with
    | some (.flag merge) => .ok (some (file, merge))
    | _ => .ok (some (file, true))
  | some _ => .ok none

/-- The configuration in use.
mirrors `get_mappings` (config.lib 192-211) -/
def active (read : FileReader) (e : Environment) (path : Option Text) (merge : Option Bool) :
    Except Error Mapping :=
  match activeFile e path merge with
  | .error error => .error error
  | .ok none => .ok builtIn
  | .ok (some (file, merge)) => load read file merge

end ModernControls.Mapping
