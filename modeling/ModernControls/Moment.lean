import ModernControls.Decimal.Reading

/-!
# Dates and times

Calendar dates, alone or with a time of day and an offset from universal time, as they are written
in texts.
-/

namespace ModernControls

/-- A date; with a time of day, in hours, minutes, seconds and millionths, and perhaps an
offset in minutes. -/
structure Moment where
  year : Nat
  month : Nat
  day : Nat
  time : Option (Nat × Nat × Nat × Nat)
  offset : Option Int
  deriving DecidableEq, Repr

namespace Moment

/-- A number of digits between two bounds at the start of a text, as many as there are. -/
def digits (least most : Nat) (text : Text) : Option (Nat × Text) :=
  let run := (text.take most).takeWhile isAsciiDigit
  if run.length < least then none
  else (natIn? 10 run).map (·, text.drop run.length)

/-- A given character at the start of a text. -/
def sign (c : Char) : Text → Option Text
  | d :: rest => if c = d then some rest else none
  | [] => none

/-- A text without the spaces and tabs at its start. -/
def skipGap (text : Text) : Text := text.dropWhile isSpaceOrTab

/-- The millionths of a second that the digits after a point stand for. -/
def millionths (run : Text) : Nat :=
  let kept := run.take 6
  (natIn? 10 kept).getD 0 * Nat.pow 10 (6 - kept.length)

/-- An offset at the end of a text: the letter Z, or hours and perhaps minutes with a sign. -/
def offsetAtEnd (text : Text) : Option Int :=
  match text with
  | ['Z'] => some 0
  | c :: rest =>
    if c = '+' ∨ c = '-' then do
      let (hours, rest) ← digits 1 2 rest
      let minutes ← match rest with
        | [] => some 0
        | ':' :: rest => do
          let (minutes, rest) ← digits 2 2 rest
          if rest.isEmpty then some minutes else none
        | _ => none
      let total : Int := hours * 60 + minutes
      some (if c = '-' then -total else total)
    else none
  | [] => none

/-- A time of day and perhaps an offset at the end of a text. -/
def timeAtEnd (text : Text) : Option ((Nat × Nat × Nat × Nat) × Option Int) := do
  let (hour, rest) ← digits 1 2 text
  let (minute, rest) ← digits 2 2 (← sign ':' rest)
  let (second, rest) ← digits 2 2 (← sign ':' rest)
  let (fraction, rest) := match rest with
    | '.' :: rest => (rest.takeWhile isAsciiDigit, rest.dropWhile isAsciiDigit)
    | _ => ([], rest)
  let time := (hour, minute, second, millionths fraction)
  if rest.isEmpty then some (time, none)
  else do
    let offset ← offsetAtEnd (skipGap rest)
    some (time, some offset)

/-- A date at the start of a text: a year of four digits, a month and a day. -/
def dateAtStart (text : Text) : Option ((Nat × Nat × Nat) × Text) := do
  let (year, rest) ← digits 4 4 text
  let (month, rest) ← digits 1 2 (← sign '-' rest)
  let (day, rest) ← digits 1 2 (← sign '-' rest)
  some ((year, month, day), rest)

/-- What stands before a time of day: the letter T or a gap. -/
def beforeTime (text : Text) : Option Text :=
  match text with
  | c :: rest =>
    if c = 'T' ∨ c = 't' then some rest
    else if isSpaceOrTab c then some (skipGap rest)
    else none
  | [] => none

/-- The date, or date and time, that a text is written as; the calendar is not looked at. -/
def parse? (text : Text) : Option Moment := do
  let ((year, month, day), rest) ← dateAtStart text
  if rest.isEmpty then some ⟨year, month, day, none, none⟩
  else do
    let (time, offset) ← timeAtEnd (← beforeTime rest)
    some ⟨year, month, day, some time, offset⟩

/-- Whether a text is a date without need of a tag: with two digits for the month and the day if
there is no time. -/
def isImplicit (text : Text) : Bool :=
  match parse? text with
  | some moment => moment.time.isSome || text.length = 10
  | none => false

/-- Whether a year has a leap day. -/
def isLeap (year : Nat) : Bool := year % 4 = 0 && (year % 100 ≠ 0 || year % 400 = 0)

/-- The days of a month. -/
def daysIn (year month : Nat) : Nat :=
  if month = 2 then (if isLeap year then 29 else 28)
  else if [4, 6, 9, 11].contains month then 30
  else 31

/-- Whether the calendar has a moment. -/
def check (m : Moment) : Bool :=
  1 ≤ m.year && 1 ≤ m.month && m.month ≤ 12 && 1 ≤ m.day && m.day ≤ daysIn m.year m.month
    && (match m.time with
      | none => true
      | some (hour, minute, second, _) => hour < 24 && minute < 60 && second < 60)
    && (match m.offset with
      | none => true
      | some offset => offset.natAbs < 24 * 60)

/-- A number with zeros before it up to a width. -/
def padded (width n : Nat) : Text :=
  let run := Text.ofNat n
  List.replicate (width - run.length) '0' ++ run

/-- An offset as hours and minutes. -/
def offsetText (offset : Int) : Text :=
  let n := offset.natAbs
  (if offset < 0 then '-' else '+') :: padded 2 (n / 60) ++ ':' :: padded 2 (n % 60)

/-- A moment with a text between its date and its time. -/
def text (between : Text) (m : Moment) : Text :=
  let date := padded 4 m.year ++ '-' :: padded 2 m.month ++ '-' :: padded 2 m.day
  match m.time with
  | none => date
  | some (hour, minute, second, micro) =>
    date ++ between ++ padded 2 hour ++ ':' :: padded 2 minute ++ ':' :: padded 2 second
      ++ (if micro = 0 then [] else '.' :: padded 6 micro)
      ++ (match m.offset with
        | none => []
        | some offset => offsetText offset)

/-- The days before a date since the year one. -/
def dayNumber (year month day : Nat) : Nat :=
  let y := year - 1
  let before := (List.range' 1 (month - 1)).foldl (fun days m => days + daysIn year m) 0
  y * 365 + y / 4 - y / 100 + y / 400 + before + day

/-- The microseconds before a moment, its offset taken away. -/
def instant (m : Moment) : Int :=
  let (hour, minute, second, micro) := m.time.getD (0, 0, 0, 0)
  (((dayNumber m.year m.month m.day * 24 + hour : Nat) * 60 + minute : Nat) * 60 + second : Nat)
    * (1000000 : Int) + micro - m.offset.getD 0 * 60000000

/-- Whether two moments are the same: two dates, two times of day without offset, or two instants
with one. -/
def sameMoment (a b : Moment) : Bool :=
  a.time.isSome = b.time.isSome && a.offset.isSome = b.offset.isSome && a.instant = b.instant

/-- The parts of an offset as messages show them: negative ones as a day less. -/
def shownOffset (offset : Int) : Text :=
  if offset = 0 then "datetime.timezone.utc".toList
  else
    let days := offset / 1440
    let seconds := offset % 1440 * 60
    let parts := (if days = 0 then [] else ["days=".toList ++ Text.ofInt days])
      ++ (if seconds = 0 then [] else ["seconds=".toList ++ Text.ofInt seconds])
    "datetime.timezone(datetime.timedelta(".toList ++ Text.join [',', ' '] parts ++ "))".toList

/-- A moment as messages show it. -/
def shown (m : Moment) : Text :=
  let date := [m.year, m.month, m.day].map Text.ofNat
  match m.time with
  | none => "datetime.date(".toList ++ Text.join [',', ' '] date ++ [')']
  | some (hour, minute, second, micro) =>
    let time := [hour, minute].map Text.ofNat
      ++ (if micro ≠ 0 then [second, micro].map Text.ofNat
        else if second ≠ 0 then [Text.ofNat second] else [])
      ++ (match m.offset with
        | none => []
        | some offset => ["tzinfo=".toList ++ shownOffset offset])
    "datetime.datetime(".toList ++ Text.join [',', ' '] (date ++ time) ++ [')']

end Moment

end ModernControls
