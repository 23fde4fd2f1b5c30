/-!
# Texts

A text is the list of its characters. This module holds the operations on lines and affixes that
the rest of the library is written in.

Results:
- `join_split`: putting the pieces of a text together again gives the text;
- `not_mem_of_mem_split`: no piece holds the character the text was split at;
- `length_split`: there is one piece more than there are separators;
- `eq_of_cut`: the two parts of a cut text and the character between them are the text.
-/

namespace ModernControls

/-- A text is the list of its characters. -/
abbrev Text := List Char

/-! What is said of the characters of a text is decided by these characters, not by going through
all that there are. -/

instance (priority := 1100) decidableForallMem (t : Text) (p : Char → Prop) [DecidablePred p] :
    Decidable (∀ c ∈ t, p c) := List.decidableBAll p t

instance (priority := 1100) decidableExistsMem (t : Text) (p : Char → Prop) [DecidablePred p] :
    Decidable (∃ c ∈ t, p c) := List.decidableBEx p t

instance (priority := 1100) decidableExistsMemOption (c? : Option Char) (p : Char → Prop)
    [DecidablePred p] : Decidable (∃ c ∈ c?, p c) := Option.decidableExistsMem c?

namespace Text

/-- The line feed. -/
abbrev lineFeed : Char := '\n'

/-- The pieces of a text between the occurrences of a separator; a text without one is its own
only piece. -/
def split (separator : Char) : Text → List Text
  | [] => [[]]
  | c :: rest =>
    if c = separator then [] :: split separator rest
    else match split separator rest with
      | [] => [[c]]
      | piece :: pieces => (c :: piece) :: pieces

/-- The pieces one after the other, with a text between each two. -/
def join (between : Text) : List Text → Text
  | [] => []
  | [piece] => piece
  | piece :: pieces => piece ++ between ++ join between pieces

/-- The lines of a text; only the line feed ends one. -/
def lines (text : Text) : List Text := text.split lineFeed

/-- Lines one below the other. -/
def ofLines (ls : List Text) : Text := join [lineFeed] ls

/-- Carriage returns, alone or before a line feed, become line feeds. -/
def unifyBreaks : Text → Text
  | '\r' :: '\n' :: rest => '\n' :: unifyBreaks rest
  | '\r' :: rest => '\n' :: unifyBreaks rest
  | c :: rest => c :: unifyBreaks rest
  | [] => []

/-- A carriage return before a line feed is dropped; one that stands alone stays. -/
def pairsToFeeds : Text → Text
  | '\r' :: '\n' :: rest => '\n' :: pairsToFeeds rest
  | c :: rest => c :: pairsToFeeds rest
  | [] => []

/-- Whether a text begins with another. -/
def startsWith : Text → Text → Bool
  | _, [] => true
  | [], _ :: _ => false
  | c :: text, d :: start => c = d && startsWith text start

/-- What follows a text at the start of another, if it stands there. -/
def after? : Text → Text → Option Text
  | [], text => some text
  | _ :: _, [] => none
  | d :: start, c :: text => if c = d then after? start text else none

/-- Whether a text occurs in another. -/
def occursIn (part : Text) : Text → Bool
  | [] => part.isEmpty
  | c :: rest => startsWith (c :: rest) part || occursIn part rest

/-- The text before the first occurrence of a character, and what follows it if there is one. -/
def cut (stop : Char) : Text → Text × Option Text
  | [] => ([], none)
  | c :: rest =>
    if c = stop then ([], some rest)
    else ((c :: (cut stop rest).1), (cut stop rest).2)

/-- The text before the last occurrence of a character and the text after it, if it occurs. -/
def cutLast? (stop : Char) (text : Text) : Option (Text × Text) :=
  match cut stop text.reverse with
  | (_, none) => none
  | (after, some before) => some (before.reverse, after.reverse)

/-- The longest ending of a text whose characters all fail the test is dropped, with the part
before it kept. -/
def dropEndWhile (p : Char → Bool) (text : Text) : Text :=
  (text.reverse.dropWhile p).reverse

/-- A text without the characters of a class at either end. -/
def strip (p : Char → Bool) (text : Text) : Text :=
  dropEndWhile p (text.dropWhile p)

/-- A number of equal characters. -/
def spaces (n : Nat) : Text := List.replicate n ' '

/-- The decimal digits of a natural number. -/
def ofNat (n : Nat) : Text := Nat.toDigits 10 n

/-- The decimal digits of an integer, with a minus before a negative one. -/
def ofInt (n : Int) : Text :=
  if n < 0 then '-' :: ofNat n.natAbs else ofNat n.natAbs

/-- A number in base sixteen with lower case letters, filled with zeros to a width. -/
def ofHex (width n : Nat) : Text :=
  let digits := Nat.toDigits 16 n
  List.replicate (width - digits.length) '0' ++ digits

/-- The upper case form of an ASCII letter; any other character stays. -/
def raised (text : Text) : Text := text.map Char.toUpper

/-- The lower case form of each ASCII letter; any other character stays. -/
def lowered (text : Text) : Text := text.map Char.toLower

theorem split_ne_nil (s : Char) (t : Text) : split s t ≠ [] := by
  cases t with
  | nil => simp [split]
  | cons c rest =>
    rw [split]
    split
    · simp
    · split <;> simp

theorem join_split (s : Char) (t : Text) : join [s] (split s t) = t := by
  induction t with
  | nil => rfl
  | cons c rest ih =>
    rw [split]
    by_cases h : c = s
    · rw [if_pos h]
      cases hs : split s rest with
      | nil => exact absurd hs (split_ne_nil s rest)
      | cons p ps => rw [hs] at ih; simp [join, ih, h]
    · rw [if_neg h]
      cases hs : split s rest with
      | nil => exact absurd hs (split_ne_nil s rest)
      | cons p ps =>
        rw [hs] at ih
        cases ps with
        | nil => simpa [join] using ih
        | cons q qs => simpa [join] using ih

theorem not_mem_of_mem_split {s : Char} {t piece : Text} (h : piece ∈ split s t) : s ∉ piece := by
  induction t generalizing piece with
  | nil => simp_all [split]
  | cons c rest ih =>
    rw [split] at h
    by_cases hc : c = s
    · rw [if_pos hc] at h
      rcases List.mem_cons.1 h with rfl | h
      · simp
      · exact ih h
    · rw [if_neg hc] at h
      cases hs : split s rest with
      | nil => exact absurd hs (split_ne_nil s rest)
      | cons p ps =>
        rw [hs] at h
        rcases List.mem_cons.1 h with rfl | h
        · have := ih (hs ▸ List.mem_cons_self)
          simp [Ne.symm hc, this]
        · exact ih (hs ▸ List.mem_cons_of_mem _ h)

theorem eq_of_cut {s : Char} {t a b : Text} (h : cut s t = (a, some b)) : t = a ++ s :: b := by
  induction t generalizing a with
  | nil => simp [cut] at h
  | cons c r ih =>
    rw [cut] at h
    by_cases hc : c = s
    · simp only [if_pos hc, Prod.mk.injEq, Option.some.injEq] at h
      simp [← h.1, ← h.2, hc]
    · simp only [if_neg hc, Prod.mk.injEq] at h
      have := ih (a := (cut s r).1) (by rw [← h.2])
      rw [← h.1, List.cons_append, ← this]

theorem length_split (s : Char) (t : Text) : (split s t).length = t.count s + 1 := by
  induction t with
  | nil => rfl
  | cons c rest ih =>
    rw [split]
    by_cases h : c = s
    · simp [h, ih]
    · rw [if_neg h]
      cases hs : split s rest with
      | nil => exact absurd hs (split_ne_nil s rest)
      | cons p ps => rw [hs] at ih; simpa [List.count_cons, h] using ih

end Text

end ModernControls
