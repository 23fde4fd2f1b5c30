import ModernControls.Conversion.Log
import ModernControls.Table
import ModernControls.Text.Blank

/-!
# Reports

What a program reports while it works: records of several levels by named loggers, and entries of
conversion logs. A record is shown if its level is at least the one that is asked for.
-/

namespace ModernControls

/-- The levels of records. -/
inductive Level
  | debug
  | info
  | warning
  | error
  deriving DecidableEq, Repr

namespace Level

/-- The rank of a level. -/
def rank : Level → Int
  | .debug => 10
  | .info => 20
  | .warning => 30
  | .error => 40

/-- The name of a level in records. -/
def name : Level → Text
  | .debug => "DEBUG".toList
  | .info => "INFO".toList
  | .warning => "WARNING".toList
  | .error => "ERROR".toList

/-- The ranks by their names. -/
def ranks : List (Text × Int) :=
  [("CRITICAL".toList, 50), ("FATAL".toList, 50), ("ERROR".toList, 40), ("WARNING".toList, 30),
    ("WARN".toList, 30), ("INFO".toList, 20), ("DEBUG".toList, 10), ("NOTSET".toList, 0)]

/-- The upper case form of a character, as far as names of levels need it. -/
def upper (c : Char) : Char := if c = 'ſ' then 'S' else if c = 'ı' then 'I' else c.toUpper

/-- The rank that is asked for if none is named rightly. -/
def standardRank : Int := Level.warning.rank

/-- The rank that a name stands for.
mirrors `parse_level` (core.log.lib 38-49) -/
def rankOf (name : Text) (standIn : Int) : Int :=
  (Table.get? ranks (name.trim.map upper)).getD standIn

end Level

namespace Logger

/-- The name of all loggers together. -/
def root : Text := "paconvert".toList

/-- The logger of a name; without one, that of the whole program.
mirrors `get_logger` (core.log.lib 26-35) -/
def named (name : Option Text) : Text :=
  match name with
  | some (c :: rest) => c :: rest
  | _ => root

/-- The logger of the command line. -/
def commandLine : Text := "paconvert.cli".toList

/-- The logger of the notes of conversions. -/
def notes : Text := "paconvert.engine".toList

/-- The logger of engines. -/
def engine : Text := "paconvert.engine.lib".toList

/-- The logger of mapping files. -/
def mapping : Text := "paconvert.mapping.lib".toList

/-- The logger of documents. -/
def document : Text := "paconvert.dialect.lib".toList

end Logger

/-- A time as records and as log entries show it. -/
structure Stamp where
  full : Text
  clock : Text
  deriving DecidableEq, Repr

/-- A moment as records and as log entries show it, with its thousandths in records. -/
def Stamp.ofMoment (m : Moment) : Stamp :=
  let (_, _, _, micro) := m.time.getD (0, 0, 0, 0)
  let clock := LogEntry.timeOf m
  let date :=
    Text.join ['-'] [Moment.padded 4 m.year, Moment.padded 2 m.month, Moment.padded 2 m.day]
  ⟨date ++ ' ' :: clock ++ ',' :: Moment.padded 3 (micro / 1000), clock⟩

/-- Something that is reported. -/
inductive Report
  | logged (logger : Text) (level : Level) (message : Text)
  | entry (timestamps : Bool) (message : Text)
  | usage (text : Text)
  deriving DecidableEq, Repr

namespace Report

/-- Whether a report is shown at a rank. -/
def isShown (rank : Int) : Report → Bool
  | .logged _ level _ => rank ≤ level.rank
  | _ => true

/-- A report as text.
mirrors `DEFAULT_FORMAT` (core.log.lib 9) and `cmd_convert` (main 55-56) -/
def text (stamp : Stamp) : Report → Text
  | .logged logger level message =>
    Text.join " - ".toList [stamp.full, logger, level.name, message] ++ ['\n']
  | .entry timestamps message => LogEntry.text timestamps ⟨stamp.clock, message⟩ ++ ['\n']
  | .usage text => text

end Report

end ModernControls
