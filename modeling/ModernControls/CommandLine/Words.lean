import ModernControls.Table
import ModernControls.Text.Digit

/-!
# Words of a command line

The words of a command line are switches, values of switches, and words that stand at the place a
grammar has for them. A switch may be shortened as long as it stays the only one that begins so;
its value is joined to it or is the next word. After a divider no word is a switch.

Results:
- `roles_divider`: after a divider all words are plain.
-/

namespace ModernControls

/-- The switches of all commands. -/
inductive Switch
  | help
  | logLevel
  | output
  | mappings
  | log
  deriving DecidableEq, Repr

/-- Whether a switch has a value. -/
def Switch.takesValue : Switch → Bool
  | .help => false
  | .log => false
  | _ => true

/-- The value of a switch. A divider that is joined to a switch stands for no value at all. -/
inductive SwitchValue
  | text (value : Text)
  | void
  deriving DecidableEq, Repr

/-- What the words stand for that belong to no switch. -/
inductive Operands
  | needed
  | optional
  | command
  deriving DecidableEq, Repr

/-- How the words of a command are read: what it is called, its switches by their names, and what
else it takes. -/
structure Grammar where
  title : Text
  switches : Table Switch
  place : Option Operands
  deriving DecidableEq, Repr

/-- Why words are refused. -/
inductive Misuse
  | ambiguous (word : Text)
  | needlessValue (word : Text)
  | missingValue (word : Text)
  | missingWord
  | unknownCommand (word : Text)
  | unknownWords (words : List Text)
  deriving DecidableEq, Repr

/-- The words that say why words are refused. -/
def Misuse.message : Misuse → Text
  | .ambiguous word => "ambiguous option: ".toList ++ word
  | .needlessValue word => "ignored explicit argument: ".toList ++ word
  | .missingValue word => "expected one argument: ".toList ++ word
  | .missingWord => "an argument is required".toList
  | .unknownCommand word => "invalid choice: ".toList ++ word
  | .unknownWords words => "unrecognized arguments: ".toList ++ Text.join [' '] words

/-- Why nothing is carried out. -/
inductive Stop
  | help (grammar : Grammar)
  | misuse (grammar : Grammar) (reason : Misuse)
  deriving DecidableEq, Repr

/-- What a word is, as far as it shows by itself. A switch is `short` if its name is one
character; its value is the one that is joined to it. -/
inductive Role
  | plain
  | divider
  | switch (switch : Switch) (short : Bool) (value : Option Text)
  | unknown
  deriving DecidableEq, Repr

/-- A word and what it is. -/
structure Argument where
  text : Text
  role : Role
  deriving DecidableEq, Repr

namespace Argument

/-- The word after which none is a switch. -/
def divider : Text := "--".toList

/-- Whether the name of a switch is one character after a hyphen. -/
def isShort (name : Text) : Bool := !name.startsWith divider

/-- Whether a word is a negative number; a line feed may end it. -/
def isNegativeNumber : Text → Bool
  | '-' :: rest =>
    let number := if rest.getLast? = some '\n' then rest.dropLast else rest
    let fraction := number.dropWhile isDecimalDigit
    match fraction with
    | [] => !number.isEmpty
    | '.' :: digits => !digits.isEmpty && digits.all isDecimalDigit
    | _ => false
  | _ => false

/-- Whether a word cannot be a switch: it begins with no hyphen, or is nothing else. -/
def isOrdinary : Text → Bool
  | '-' :: rest => rest.isEmpty
  | _ => true

end Argument

namespace Grammar

/-- A switch with a joined value, if the word is the full name of one before an equals sign. -/
def joined? (g : Grammar) (word : Text) : Option Role :=
  match word.cut '=' with
  | (name, some value) => (g.switches.get? name).map (.switch · (Argument.isShort name) (some value))
  | (_, none) => none

/-- The switches that a word may stand for: a word with two hyphens may be cut short before an
equals sign or its end, and one with one hyphen is the name of a switch before its value.
mirrors `_get_option_tuples` of the argument parser -/
def candidates (g : Grammar) (word : Text) : List Role :=
  if word.startsWith Argument.divider then
    let (start, value) := word.cut '='
    (g.switches.filter fun (name, _) => name.startsWith start).map fun (_, s) =>
      .switch s false value
  else
    (g.switches.filter fun (name, _) => name = word.take 2).map fun (_, s) =>
      .switch s true (some (word.drop 2))

/-- What a word that begins like a switch is if it is none: a word if it is a negative number or
holds a space. -/
def roleOfStray (word : Text) : Role :=
  if Argument.isNegativeNumber word || word.contains ' ' then .plain else .unknown

/-- What a word before a divider is.
mirrors `_parse_optional` of the argument parser -/
def roleOf (g : Grammar) (word : Text) : Except Stop Role :=
  if Argument.isOrdinary word then .ok .plain
  else match g.switches.get? word, g.joined? word, g.candidates word with
    | some s, _, _ => .ok (.switch s (Argument.isShort word) none)
    | none, some role, _ => .ok role
    | none, none, [role] => .ok role
    | none, none, [] => .ok (roleOfStray word)
    | none, none, _ => .error (.misuse g (.ambiguous word))

/-- The words with what they are. -/
def roles (g : Grammar) : List Text → Except Stop (List Argument)
  | [] => .ok []
  | word :: rest =>
    if word = Argument.divider then .ok (⟨word, .divider⟩ :: rest.map (⟨·, .plain⟩))
    else match g.roleOf word, roles g rest with
      | .ok role, .ok others => .ok (⟨word, role⟩ :: others)
      | .error stop, _ => .error stop
      | .ok _, .error stop => .error stop

end Grammar

/-- The switches that are given. -/
structure Given where
  logLevel : Option SwitchValue := none
  output : Option SwitchValue := none
  mappings : Option SwitchValue := none
  log : Bool := false
  deriving DecidableEq, Repr

/-- What is given after one more switch: a later one counts. -/
def Given.set (given : Given) (switch : Switch) (value : Text) : Given :=
  let value := if value = Argument.divider then .void else .text value
  match switch with
  | .help => given
  | .logLevel => { given with logLevel := some value }
  | .output => { given with output := some value }
  | .mappings => { given with mappings := some value }
  | .log => { given with log := true }

/-- Words that have been read: the switches, the words at the place of the grammar, and those that
belong nowhere. -/
structure WordsRead where
  given : Given := {}
  taken : Option (List Text) := none
  others : List Text := []
  deriving DecidableEq, Repr

namespace WordsRead

/-- Words read with one more switch. -/
def give (r : WordsRead) (switch : Switch) (value : Text) : WordsRead :=
  { r with given := r.given.set switch value }

/-- Words read with more that belong nowhere. -/
def leave (r : WordsRead) (words : List Text) : WordsRead :=
  { r with others := r.others ++ words }

/-- Words read with those at the place of the grammar. -/
def take (r : WordsRead) (words : List Text) : WordsRead :=
  { r with taken := some words }

/-- What a grammar still has a place for. -/
def openPlace (r : WordsRead) (g : Grammar) : Option Operands :=
  match r.taken with
  | some _ => none
  | none => g.place

end WordsRead

namespace Grammar

/-- The switches that one word holds, the last one with the value joined to it: without hyphens,
names of one character follow a short switch that takes no value. None if a value is joined to a
switch that takes none. -/
def cluster (g : Grammar) (switch : Switch) (short : Bool) (joined : Text) :
    Option (List Switch × Option Text) :=
  if switch.takesValue then some ([switch], some joined)
  else match joined with
    | [] => none
    | c :: rest =>
      match if short then g.switches.get? ['-', c] else none with
      | none => none
      | some next =>
        if rest.isEmpty then some ([switch, next], none)
        else (cluster g next true rest).map fun (others, value) => (switch :: others, value)

/-- The switches that one word holds, the last one with the value joined to it. -/
def switchesOf (g : Grammar) (switch : Switch) (short : Bool) (joined : Option Text) :
    Option (List Switch × Option Text) :=
  match joined with
  | none => some ([switch], none)
  | some joined => g.cluster switch short joined

/-- Whether the last one of some switches still needs a value. -/
def needsValue (switches : List Switch) (value : Option Text) : Bool :=
  value.isNone && switches.getLast?.any Switch.takesValue

/-- Words read with the switches of one word, unless these ask for help. -/
def give (g : Grammar) (r : WordsRead) (switches : List Switch) (value : Text) :
    Except Stop WordsRead :=
  if switches.contains .help then .error (.help g)
  else .ok (switches.foldl (fun r s => r.give s value) r)

/-- Words read with those from a divider on; `fresh` says whether the divider comes right after
the word at the place of the grammar, which it may close. -/
def readDivided (g : Grammar) (r : WordsRead) (fresh : Bool) (rest : List Text) : WordsRead :=
  match r.openPlace g, rest with
  | some .needed, word :: rest => (r.take [word]).leave rest
  | some .needed, [] => r.leave [Argument.divider]
  | some .optional, word :: rest => (r.take [word]).leave rest
  | some .optional, [] => r.take []
  | some .command, [] => r.leave [Argument.divider]
  | some .command, rest => r.take (Argument.divider :: rest)
  | none, rest => if fresh then r.leave rest else r.leave (Argument.divider :: rest)

/-- Words read one after the other. The first plain word takes the place of the grammar, and a
command takes all that follow it.
mirrors `consume_optional` and `consume_positionals` of the argument parser -/
def readAll (g : Grammar) (r : WordsRead) (fresh : Bool) : List Argument → Except Stop WordsRead
  | [] => .ok r
  | ⟨text, .plain⟩ :: rest =>
    match r.openPlace g with
    | some .command => .ok (r.take (text :: rest.map Argument.text))
    | some _ => readAll g (r.take [text]) true rest
    | none => readAll g (r.leave [text]) false rest
  | ⟨_, .divider⟩ :: rest => .ok (g.readDivided r fresh (rest.map Argument.text))
  | ⟨text, .unknown⟩ :: rest => readAll g (r.leave [text]) false rest
  | ⟨text, .switch s short joined⟩ :: rest =>
    match g.switchesOf s short joined with
    | none => .error (.misuse g (.needlessValue text))
    | some (switches, value) =>
      if needsValue switches value then
        match rest with
        | ⟨next, .plain⟩ :: rest =>
          match g.give r switches next with
          | .ok r => readAll g r false rest
          | .error stop => .error stop
        | _ => .error (.misuse g (.missingValue text))
      else
        match g.give r switches (value.getD []) with
        | .ok r => readAll g r false rest
        | .error stop => .error stop

/-- Words read with a grammar; a word that it needs must be there.
mirrors `_parse_known_args` of the argument parser -/
def read (g : Grammar) (words : List Text) : Except Stop WordsRead :=
  match g.roles words with
  | .error stop => .error stop
  | .ok words =>
    match g.readAll {} false words with
    | .error stop => .error stop
    | .ok r => if r.openPlace g = some .needed then .error (.misuse g .missingWord) else .ok r

theorem roles_divider (g : Grammar) (rest : List Text) :
    g.roles (Argument.divider :: rest)
      = .ok (⟨Argument.divider, .divider⟩ :: rest.map (⟨·, .plain⟩)) := by
  simp [roles]

end Grammar

end ModernControls
