import ModernControls.Files

/-!
# Environments

The variables that a process finds, and the home directories of the accounts on its system. A path
may begin in the home directory of a user, `~` for the one who runs the process and `~name` for
another; a variable counts more than the account of the former.
-/

namespace ModernControls

/-- The variables that a process finds, and the accounts on its system. -/
structure Environment where
  /-- The texts of the variables, by name. -/
  values : Table Text
  /-- The home directory in the account of the user who runs the process. -/
  ownHome : Option Text := none
  /-- The home directory in the account of a user with a name. -/
  homeOf : Text → Option Text := fun _ => none

namespace Environment

/-- What a part that names a home directory begins with. -/
def homeSign : Char := '~'

/-- The name of the variable for the home directory. -/
def homeName : Text := "HOME".toList

/-- The home directory of a user, without slashes at its end; the user who runs the process is
meant by no name. -/
def home? (e : Environment) (user : Text) : Option Text :=
  let found := if user.isEmpty then e.values.get? homeName <|> e.ownHome else e.homeOf user
  found.map fun home =>
    match home.dropEndWhile (· = '/') with
    | [] => ['/']
    | home => home

/-- A path with the home directory that it begins in; none if it is not known which one is meant.
mirrors `_convert_value` (config.lib 127-128) -/
def expand? (e : Environment) (path : Text) : Option Text :=
  match FilePath.root path, FilePath.parts path with
  | [], (c :: user) :: rest =>
    if c ≠ homeSign then some (FilePath.normalize path)
    else
      match e.home? user with
      | none => none
      | some home =>
        if home.head? = some homeSign then none
        else some (FilePath.ofParts (FilePath.root home) (FilePath.parts home ++ rest))
  | _, _ => some (FilePath.normalize path)

end Environment

end ModernControls
