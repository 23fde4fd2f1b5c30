import ModernControls.CommandLine.Run
import Std.Time.Zoned

/-!
# The program

Reads what a command needs, runs it, writes what it leaves, and returns its code. A file that
cannot be written makes the command run again, so that it reports why.
-/

namespace ModernControls.Program

/-- The fault of a file that an error of the system stands for. -/
def faultOf : IO.Error → Option FileFault
  | .noFileOrDirectory _ _ _ => some .missing
  | .permissionDenied _ _ _ => some .denied
  | .inappropriateType _ code _ => some (if code = 20 then .notDirectory else .isDirectory)
  | _ => none

/-- The content of a file, or its fault. -/
def readFile (path : Text) : IO (Except FileFault Text) := do
  try
    return .ok (← IO.FS.readFile (String.ofList path)).toList
  catch e =>
    match faultOf e with
    | some fault => return .error fault
    | none => throw e

/-- The fault of a file that cannot be written; none if it has been written. -/
def writeFile (path text : Text) : IO (Option FileFault) := do
  try
    IO.FS.writeFile (String.ofList path) (String.ofList text)
    return none
  catch e =>
    match faultOf e with
    | some fault => return some fault
    | none => throw e

/-- The variables that are set among those that commands ask for, with their texts. -/
def foundValues : IO (Table Text) := do
  let mut found := []
  for name in Environment.homeName :: Setting.all.map Setting.variableName do
    if let some value ← IO.getEnv (String.ofList name) then
      found := found ++ [(name, value.toList)]
  return found

/-- The lines of a file of the system, each in its fields; none if it cannot be read. -/
def fieldsOf (path : Text) (separator : Char) : IO (List (List Text)) := do
  match ← readFile path with
  | .ok text => return text.lines.map (Text.split separator)
  | .error _ => return []

/-- The variables, and the home directories in the list of accounts. -/
def environment : IO Environment := do
  let accounts ← fieldsOf "/etc/passwd".toList ':'
  let status ← fieldsOf "/proc/self/status".toList '\t'
  let user := status.findSome? fun
    | ['U', 'i', 'd', ':'] :: number :: _ => some number
    | _ => none
  return {
    values := ← foundValues
    ownHome := accounts.findSome? fun
      | _ :: _ :: number :: _ :: _ :: home :: _ => if some number = user then some home else none
      | _ => none
    homeOf := fun user => accounts.findSome? fun
      | name :: _ :: _ :: _ :: _ :: home :: _ => if name = user then some home else none
      | _ => none }

/-- The world that a command finds. -/
def world (command : Option Command) : IO World := do
  let environment ← environment
  let mut contents := []
  for path in (command.map (Command.files environment)).getD [] do
    contents := contents ++ [(path, ← readFile path)]
  let mut input := ""
  if (command.map Command.readsInput).getD false then
    input ← (← IO.getStdin).readToEnd
  let found := contents
  return {
    read := fun path => ((found.find? (·.1 = path)).map (·.2)).getD (.error .missing)
    writeFault? := fun _ => none
    environment := environment
    input := input.toList }

/-- The present moment. -/
def now : IO Moment := do
  let t ← Std.Time.PlainDateTime.now
  return {
    year := t.year.toInt.toNat
    month := t.month.val.toNat
    day := t.day.val.toNat
    time := some (t.hour.val.toNat, t.minute.val.toNat, t.second.val.toNat,
      t.nanosecond.val.toNat / 1000)
    offset := none }

/-- Prints what an outcome leaves and gives its code. -/
def finish (outcome : Outcome) : IO UInt32 := do
  IO.eprint (String.ofList (outcome.reported (.ofMoment (← now))))
  IO.print (String.ofList outcome.printed)
  match outcome.exit with
  | .returned code => return code.toUInt32
  | .ended code => return code.toUInt32

/-- Carries out a line of words in a world. -/
def perform (w : World) (words : List Text) : IO UInt32 := do
  match run w words with
  | .error _ => throw (IO.userError "the command broke off")
  | .ok outcome =>
    match outcome.file with
    | none => finish outcome
    | some (path, text) =>
      match ← writeFile path text with
      | none => finish outcome
      | some fault =>
        match run { w with writeFault? := fun _ => some fault } words with
        | .error _ => throw (IO.userError "the command broke off")
        | .ok outcome => finish outcome

end ModernControls.Program

/-- Runs the command that the words ask for. -/
def main (words : List String) : IO UInt32 := do
  let words := words.map String.toList
  let command := match ModernControls.Invocation.parse words with
    | .ok invocation => invocation.command
    | .error _ => none
  ModernControls.Program.perform (← ModernControls.Program.world command) words
