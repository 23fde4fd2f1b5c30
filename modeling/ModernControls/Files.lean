import ModernControls.Table
import ModernControls.Text.Shown

/-!
# Files

Names of files in one form for each, and the files that lie in and below a directory. Reading and
writing fail where there is no such file, where a directory has the name, and where a file stands
in the place of a directory.
-/

namespace ModernControls

namespace FilePath

/-- The parts of a name that count. -/
def parts (name : Text) : List Text :=
  (name.split '/').filter fun part => !part.isEmpty && part ≠ ['.']

/-- What a name begins with if it does not start in the current directory; two slashes are kept,
more are one. -/
def root : Text → Text
  | '/' :: '/' :: '/' :: _ => ['/']
  | '/' :: '/' :: _ => ['/', '/']
  | '/' :: _ => ['/']
  | _ => []

/-- The name with some parts behind what it begins with. -/
def ofParts (start : Text) (parts : List Text) : Text :=
  match start ++ Text.join ['/'] parts with
  | [] => ['.']
  | text => text

/-- A name without the parts that do not count. -/
def normalize (name : Text) : Text := ofParts (root name) (parts name)

end FilePath

/-- Why a file is not read or written. -/
inductive FileFault
  | missing
  | denied
  | notDirectory
  | isDirectory
  deriving DecidableEq, Repr

/-- The report on a file that is not read or written. -/
def FileFault.message (path : Text) : FileFault → Text
  | .missing => "[Errno 2] No such file or directory: ".toList ++ path.shown
  | .denied => "[Errno 13] Permission denied: ".toList ++ path.shown
  | .notDirectory => "[Errno 20] Not a directory: ".toList ++ path.shown
  | .isDirectory => "[Errno 21] Is a directory: ".toList ++ path.shown

/-- The files in and below a directory by their names. -/
abbrev Directory := Table Text

namespace Directory

/-- Whether a name is that of a directory above one of the files. -/
def hasDirectory (d : Directory) (name : Text) : Bool :=
  name.isEmpty || d.any fun (file, _) => file.startsWith (name ++ ['/'])

/-- The name that parts lead to, one after the other. -/
def walk (d : Directory) (above : List Text) : List Text → Except FileFault (List Text)
  | [] => .ok above
  | part :: rest =>
    let here := Text.join ['/'] above
    if d.hasKey here then .error .notDirectory
    else if !d.hasDirectory here then .error .missing
    else if part = ['.', '.'] then
      if above.isEmpty then .error .missing else walk d above.dropLast rest
    else walk d (above ++ [part]) rest

/-- The name of a file that a path leads to. -/
def resolve (d : Directory) (path : Text) : Except FileFault Text :=
  match FilePath.root path, FilePath.parts path with
  | [], [] => .error .isDirectory
  | [], parts =>
    if parts.all (· = ['.', '.']) then .error .isDirectory
    else (walk d [] parts).map (Text.join ['/'])
  | _, [] => .error .isDirectory
  | _, _ => .error .missing

/-- The content of the file that a path leads to. -/
def read (d : Directory) (path : Text) : Except FileFault Text :=
  match resolve d path with
  | .error fault => .error fault
  | .ok name =>
    match d.get? name with
    | some content => .ok content
    | none => .error (if d.hasDirectory name then .isDirectory else .missing)

/-- Why no file can be written at a path, if none can. -/
def writeFault? (d : Directory) (path : Text) : Option FileFault :=
  match resolve d path with
  | .error fault => some fault
  | .ok name => if !d.hasKey name && d.hasDirectory name then some .isDirectory else none

end Directory

end ModernControls
