import ModernControls.Text

/-!
# Decoding UTF-8

Bytes decoded to text, with a report on the first bytes that stand for no character.
-/

namespace ModernControls.Utf8

/-- Why bytes stand for no character. -/
inductive Reason
  | start
  | continuation
  | ending
  deriving DecidableEq, Repr

/-- The words for a reason. -/
def Reason.text : Reason → Text
  | .start => "invalid start byte".toList
  | .continuation => "invalid continuation byte".toList
  | .ending => "unexpected end of data".toList

/-- The least and greatest second byte after a first one. -/
def secondRange (first : Nat) : Nat × Nat :=
  if first = 0xE0 then (0xA0, 0xBF)
  else if first = 0xED then (0x80, 0x9F)
  else if first = 0xF0 then (0x90, 0xBF)
  else if first = 0xF4 then (0x80, 0x8F)
  else (0x80, 0xBF)

/-- How many bytes follow a first one, if it can start a character. -/
def following? (first : Nat) : Option Nat :=
  if first < 0x80 then some 0
  else if first < 0xC2 then none
  else if first < 0xE0 then some 1
  else if first < 0xF0 then some 2
  else if first < 0xF5 then some 3
  else none

/-- How many of the bytes after a first one can follow it, up to the number wanted. -/
def valid (first : Nat) (wanted : Nat) (rest : List Nat) : Nat :=
  match rest.take wanted with
  | [] => 0
  | second :: more =>
    let (low, high) := secondRange first
    if low ≤ second ∧ second ≤ high then
      1 + (more.takeWhile fun b => 0x80 ≤ b && b ≤ 0xBF).length
    else 0

/-- The bits that a first byte gives to its character. -/
def firstBits (first : Nat) : Nat :=
  if first < 0x80 then first
  else if first < 0xE0 then first % 0x20
  else if first < 0xF0 then first % 0x10
  else first % 0x08

/-- A report on a number of bytes at a place. -/
def report (first : Nat) (place count : Nat) (reason : Reason) : Text :=
  let which := if count = 1 then
      "byte 0x".toList ++ Text.ofHex 2 first ++ " in position ".toList ++ Text.ofNat place
    else
      "bytes in position ".toList ++ Text.ofNat place ++ '-' :: Text.ofNat (place + count - 1)
  "'utf-8' codec can't decode ".toList ++ which ++ ": ".toList ++ reason.text

/-- The text that bytes stand for from a place on. -/
def decodeFrom : Nat → Nat → List Nat → Except Text Text
  | 0, _, _ => .ok []
  | _, _, [] => .ok []
  | budget + 1, place, first :: rest =>
    match following? first with
    | none => .error (report first place 1 .start)
    | some wanted =>
      let found := valid first wanted rest
      if found = wanted then do
        let code := (rest.take wanted).foldl (fun n b => n * 64 + b % 64) (firstBits first)
        let more ← decodeFrom budget (place + 1 + wanted) (rest.drop wanted)
        .ok (Char.ofNat code :: more)
      else if found = rest.length then .error (report first place (found + 1) .ending)
      else .error (report first place (found + 1) .continuation)

/-- The text that bytes stand for, or a report. -/
def decode (bytes : List Nat) : Except Text Text := decodeFrom bytes.length 0 bytes

end ModernControls.Utf8
