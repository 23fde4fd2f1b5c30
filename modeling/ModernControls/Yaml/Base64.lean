import ModernControls.Text.Shown

/-!
# Base 64

Bytes written in base 64 in lines of 76 characters, and read again. The reader passes over
characters that are no digits of the base and stops at the padding.
-/

namespace ModernControls.Base64

/-- The character for a digit of the base. -/
def digit (n : Nat) : Char :=
  if n < 26 then Char.ofNat (n + 65)
  else if n < 52 then Char.ofNat (n + 71)
  else if n < 62 then Char.ofNat (n - 4)
  else if n = 62 then '+' else '/'

/-- The value of a digit of the base. -/
def value? (c : Char) : Option Nat :=
  let n := c.toNat
  if 65 ≤ n ∧ n ≤ 90 then some (n - 65)
  else if 97 ≤ n ∧ n ≤ 122 then some (n - 71)
  else if 48 ≤ n ∧ n ≤ 57 then some (n + 4)
  else if c = '+' then some 62
  else if c = '/' then some 63
  else none

/-- The four characters for up to three bytes. -/
def encodeGroup : List Nat → Text
  | [a] => [digit (a / 4), digit (a % 4 * 16), '=', '=']
  | [a, b] => [digit (a / 4), digit (a % 4 * 16 + b / 16), digit (b % 16 * 4), '=']
  | a :: b :: c :: _ =>
    [digit (a / 4), digit (a % 4 * 16 + b / 16), digit (b % 16 * 4 + c / 64), digit (c % 64)]
  | [] => []

/-- The characters for bytes. -/
def encode : List Nat → Text
  | a :: b :: c :: rest => encodeGroup [a, b, c] ++ encode rest
  | bytes => encodeGroup bytes

/-- The bytes on one line. -/
def lineLength : Nat := 57

/-- Bytes in lines, each ended by a line feed. -/
def encodeLines : Nat → List Nat → Text
  | 0, _ => []
  | _, [] => []
  | budget + 1, bytes =>
    encode (bytes.take lineLength) ++ '\n' :: encodeLines budget (bytes.drop lineLength)

/-- What the reader knows: how many digits of a group came, the bits left of the last one, the
padding after it, and the bytes, the last one first. -/
structure State where
  position : Nat
  bits : Nat
  padding : Nat
  bytes : List Nat

/-- The state after a digit. -/
def State.digit (s : State) (v : Nat) : State :=
  match s.position with
  | 0 => ⟨1, v, 0, s.bytes⟩
  | 1 => ⟨2, v % 16, 0, (s.bits * 4 + v / 16) :: s.bytes⟩
  | 2 => ⟨3, v % 4, 0, (s.bits * 16 + v / 4) :: s.bytes⟩
  | _ => ⟨0, 0, 0, (s.bits * 64 + v) :: s.bytes⟩

/-- The bytes when the text is over. -/
def State.finish (s : State) : Except Text (List Nat) :=
  if s.position = 0 then .ok s.bytes.reverse
  else if s.position = 1 then
    .error ("Invalid base64-encoded string: number of data characters (".toList
      ++ Text.ofNat (s.bytes.length / 3 * 4 + 1)
      ++ ") cannot be 1 more than a multiple of 4".toList)
  else .error "Incorrect padding".toList

/-- The bytes of the rest of a text. -/
def decodeFrom (s : State) : Text → Except Text (List Nat)
  | [] => s.finish
  | c :: rest =>
    if c = '=' then
      if 2 ≤ s.position then
        if 4 ≤ s.position + s.padding + 1 then .ok s.bytes.reverse
        else decodeFrom { s with padding := s.padding + 1 } rest
      else decodeFrom s rest
    else match value? c with
      | some v => decodeFrom (s.digit v) rest
      | none => decodeFrom s rest

/-- The bytes that a text of ASCII characters stands for. -/
def decode (text : Text) : Except Text (List Nat) := decodeFrom ⟨0, 0, 0, []⟩ text

/-- A character outside ASCII as a report shows it. -/
def foreignChar (c : Char) : Text :=
  let n := c.toNat
  let escape := if n < 0x100 then '\\' :: 'x' :: Text.ofHex 2 n
    else if n < 0x10000 then '\\' :: 'u' :: Text.ofHex 4 n
    else '\\' :: 'U' :: Text.ofHex 8 n
  '\'' :: escape ++ ['\'']

/-- The report on the first characters of a text that are not ASCII. -/
def foreignReport? (text : Text) : Option Text :=
  let place := (text.takeWhile fun c => c.toNat < 0x80).length
  match (text.drop place).takeWhile fun c => 0x80 ≤ c.toNat with
  | [] => none
  | c :: more =>
    let which := if more.isEmpty then
        "character ".toList ++ foreignChar c ++ " in position ".toList ++ Text.ofNat place
      else
        "characters in position ".toList ++ Text.ofNat place
          ++ '-' :: Text.ofNat (place + more.length)
    some ("'ascii' codec can't encode ".toList ++ which
      ++ ": ordinal not in range(128)".toList)

end ModernControls.Base64
