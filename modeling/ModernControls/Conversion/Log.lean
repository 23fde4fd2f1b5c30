import ModernControls.Moment

/-!
# Conversion logs

The notes of a conversion with the times at which they were made, one on a line.
-/

namespace ModernControls

/-- A message and the time of day at which it was logged.
mirrors `LogEntry` (engine.log 11-27) -/
structure LogEntry where
  time : Text
  message : Text
  deriving DecidableEq, Repr

namespace LogEntry

/-- The time of day of a moment. -/
def timeOf (m : Moment) : Text :=
  let (hour, minute, second, _) := m.time.getD (0, 0, 0, 0)
  Text.join [':'] ([hour, minute, second].map (Moment.padded 2))

/-- An entry on a line, after its time if times are shown.
mirrors `LogEntry.format` (engine.log 23-27) -/
def text (timestamps : Bool) (entry : LogEntry) : Text :=
  if timestamps then '[' :: entry.time ++ ']' :: ' ' :: entry.message else entry.message

end LogEntry

/-- Entries in the order in which they were logged.
mirrors `ConversionLog` (engine.log 30-62) -/
abbrev Log := List LogEntry

namespace Log

/-- The messages of a log.
mirrors `ConversionLog.messages` (engine.log 50-52) -/
def messages (log : Log) : List Text := log.map (·.message)

/-- A log as text.
mirrors `ConversionLog.format` (engine.log 54-56) -/
def text (timestamps : Bool) (log : Log) : Text := Text.ofLines (log.map (LogEntry.text timestamps))

end Log

end ModernControls
