import ModernControls.Json.Reader
import ModernControls.Json.Writer
import ModernControls.Proofs.Decimal.Digits

/-!
# Reading quoted JSON text

A text that was quoted, in ASCII or not, is read again as it was: what is escaped by a letter, by
its code unit or, above the first plane, by the two halves of a surrogate pair is the character that
was escaped.

Results:
- `unit?_ofHex`: four hexadecimal digits are read as the code unit that they were made of;
- `joinUnits_halves`: the two halves of a character are joined to it;
- `readText_quote`: a quoted text is read as it was, whatever follows it.
-/
namespace ModernControls.Json

variable {whole more after body : Text} {budget : Nat} {c : Char}

/-! ## Code units -/

theorem unit?_ofHex {n : Nat} (h : n < 0x10000) : unit? (Text.ofHex 4 n) = some n := by
  have hascii : (Text.ofHex 4 n).all (·.toNat < 0x80) = true := by
    refine List.all_eq_true.2 fun c hc => ?_
    obtain ⟨d, hd, rfl⟩ := mem_ofHex hc
    exact (by decide : ∀ d < 16, decide (d.digitChar.toNat < 0x80) = true) d hd
  rw [unit?, if_pos ⟨length_ofHex (by decide) h, hascii⟩, natIn?_ofHex]

/-- The digits of a code unit and what follows them are kept apart by their number. -/
theorem take_ofHex {n : Nat} (h : n < 0x10000) (more : Text) :
    (Text.ofHex 4 n ++ more).take 4 = Text.ofHex 4 n ∧ (Text.ofHex 4 n ++ more).drop 4 = more := by
  have hl : (Text.ofHex 4 n).length = 4 := length_ofHex (by decide) h
  exact ⟨List.take_left' hl, List.drop_left' hl⟩

theorem joinUnits_halves (m : Nat) :
    joinUnits (0xD800 + m / 0x400) (0xDC00 + m % 0x400) = Char.ofNat (0x10000 + m) := by
  have hsum : 0x10000 + (0xD800 + m / 0x400 - 0xD800) * 0x400 + (0xDC00 + m % 0x400 - 0xDC00)
      = 0x10000 + m := by omega
  rw [joinUnits, hsum]

/-- The lower half of a pair is taken with the upper one. -/
theorem lowerHalf_unitEscape {low : Nat} (h : 0xDC00 ≤ low ∧ low ≤ 0xDFFF) (hm : more ≠ []) :
    lowerHalf (unitEscape low ++ more) = .ok (some low, more) := by
  have hlt : low < 0x10000 := by omega
  have hl : 5 ≤ (Text.ofHex 4 low ++ more).length := by
    have := List.length_pos_iff.2 hm
    rw [List.length_append, length_ofHex (by decide) hlt]
    omega
  obtain ⟨htake, hdrop⟩ := take_ofHex hlt more
  show lowerHalf ('\\' :: 'u' :: (Text.ofHex 4 low ++ more)) = _
  simp only [lowerHalf, if_neg (Nat.not_lt.2 hl), htake, hdrop, unit?_ofHex hlt, if_pos h]

/-! ## Characters -/

/-- Text that is read to its end does not end before its quotation mark. -/
theorem ne_nil_of_textBody {r : Text × Text} (h : textBody whole budget more = .ok r) :
    more ≠ [] := by
  rintro rfl
  cases budget <;> cases h

theorem textBody_letter {letter : Char} (hl : letter ≠ 'u') (hc : escaped? letter = some c)
    (h : textBody whole budget more = .ok (body, after)) :
    textBody whole (budget + 1) ('\\' :: letter :: more) = .ok (c :: body, after) := by
  rw [textBody.eq_def]
  dsimp only
  split
  · next heq => cases heq
  · next heq => exact absurd (List.cons.inj heq).1 (by decide)
  · next heq => cases heq
  · next heq => exact absurd (List.cons.inj (List.cons.inj heq).2).1 hl
  · next heq =>
    obtain ⟨rfl, rfl⟩ := List.cons.inj (List.cons.inj heq).2
    simp only [hc, h, bind, Except.bind]
  · next hne heq =>
    obtain ⟨rfl, rfl⟩ := List.cons.inj heq
    exact absurd rfl (hne _ _ rfl)

/-- A character that is a code unit on its own is read from its escape. -/
theorem textBody_unitEscape {n : Nat} (hn : n < 0x10000) (hs : ¬(0xD800 ≤ n ∧ n ≤ 0xDBFF))
    (h : textBody whole budget more = .ok (body, after)) :
    textBody whole (budget + 1) (unitEscape n ++ more) = .ok (Char.ofNat n :: body, after) := by
  have hl : 5 ≤ (Text.ofHex 4 n ++ more).length := by
    have := List.length_pos_iff.2 (ne_nil_of_textBody h)
    rw [List.length_append, length_ofHex (by decide) hn]
    omega
  obtain ⟨htake, hdrop⟩ := take_ofHex hn more
  show textBody whole (budget + 1) ('\\' :: 'u' :: (Text.ofHex 4 n ++ more)) = _
  simp only [textBody, if_neg (Nat.not_lt.2 hl), htake, hdrop, unit?_ofHex hn, if_neg hs, h, bind,
    Except.bind]

/-- A character above the first plane is read from the two halves of its pair. -/
theorem textBody_pair {m : Nat} (hm : m < 0x100000)
    (h : textBody whole budget more = .ok (body, after)) :
    textBody whole (budget + 1)
        (unitEscape (0xD800 + m / 0x400) ++ (unitEscape (0xDC00 + m % 0x400) ++ more))
      = .ok (Char.ofNat (0x10000 + m) :: body, after) := by
  have hn : 0xD800 + m / 0x400 < 0x10000 := by omega
  have hupper : 0xD800 ≤ 0xD800 + m / 0x400 ∧ 0xD800 + m / 0x400 ≤ 0xDBFF := by omega
  have hlower : lowerHalf (unitEscape (0xDC00 + m % 0x400) ++ more)
      = .ok (some (0xDC00 + m % 0x400), more) :=
    lowerHalf_unitEscape (by omega) (ne_nil_of_textBody h)
  generalize hrest : unitEscape (0xDC00 + m % 0x400) ++ more = rest at hlower ⊢
  have hl : 5 ≤ (Text.ofHex 4 (0xD800 + m / 0x400) ++ rest).length := by
    have : 0 < rest.length := by rw [← hrest]; simp [unitEscape]
    rw [List.length_append, length_ofHex (by decide) hn]
    omega
  obtain ⟨htake, hdrop⟩ := take_ofHex hn rest
  show textBody whole (budget + 1) ('\\' :: 'u' :: (Text.ofHex 4 (0xD800 + m / 0x400) ++ rest)) = _
  simp only [textBody, if_neg (Nat.not_lt.2 hl), htake, hdrop, unit?_ofHex hn, if_pos hupper,
    hlower, joinUnits_halves, h, bind, Except.bind]

theorem textBody_plain (hq : c ≠ '"') (hb : c ≠ '\\') (hc : 0x20 ≤ c.toNat)
    (h : textBody whole budget more = .ok (body, after)) :
    textBody whole (budget + 1) (c :: more) = .ok (c :: body, after) := by
  rw [textBody.eq_def]
  dsimp only
  split
  · next heq => cases heq
  · next heq => exact absurd (List.cons.inj heq).1 hq
  · next heq => exact absurd (List.cons.inj heq).1 hb
  · next heq => exact absurd (List.cons.inj heq).1 hb
  · next heq => exact absurd (List.cons.inj heq).1 hb
  · next heq =>
    obtain ⟨rfl, rfl⟩ := List.cons.inj heq
    simp only [if_neg (Nat.not_lt.2 hc), h, bind, Except.bind]

/-- The code units of a character as escapes. -/
def unitEscapes (c : Char) : Text :=
  if c.toNat < 0x10000 then unitEscape c.toNat
  else unitEscape (0xD800 + (c.toNat - 0x10000) / 0x400)
    ++ unitEscape (0xDC00 + (c.toNat - 0x10000) % 0x400)

theorem textBody_unitEscapes (c : Char) (h : textBody whole budget more = .ok (body, after)) :
    textBody whole (budget + 1) (unitEscapes c ++ more) = .ok (c :: body, after) := by
  have hvalid : c.toNat < 0xD800 ∨ 0xDFFF < c.toNat ∧ c.toNat < 0x110000 := c.valid
  unfold unitEscapes
  split
  · next hsmall =>
    have hread := textBody_unitEscape hsmall (by omega) h
    rwa [Char.ofNat_toNat] at hread
  · next hbig =>
    have hread := textBody_pair (m := c.toNat - 0x10000) (by omega) h
    rwa [Nat.add_sub_cancel' (Nat.le_of_not_lt hbig), Char.ofNat_toNat, ← List.append_assoc]
      at hread

/-- A character is quoted by a letter that stands for it, by its code units, or as it is. -/
theorem quotedChar_cases (asciiOnly : Bool) (c : Char) :
    (∃ letter, letter ≠ 'u' ∧ escaped? letter = some c ∧ quotedChar asciiOnly c = ['\\', letter])
      ∨ quotedChar asciiOnly c = unitEscapes c
      ∨ c ≠ '"' ∧ c ≠ '\\' ∧ 0x20 ≤ c.toNat ∧ quotedChar asciiOnly c = [c] := by
  by_cases h₁ : c = '"'
  · subst h₁; exact .inl ⟨'"', by decide, rfl, rfl⟩
  by_cases h₂ : c = '\\'
  · subst h₂; exact .inl ⟨'\\', by decide, rfl, rfl⟩
  by_cases h₃ : c = '\n'
  · subst h₃; exact .inl ⟨'n', by decide, rfl, rfl⟩
  by_cases h₄ : c = '\r'
  · subst h₄; exact .inl ⟨'r', by decide, rfl, rfl⟩
  by_cases h₅ : c = '\t'
  · subst h₅; exact .inl ⟨'t', by decide, rfl, rfl⟩
  by_cases h₆ : c = '\x0C'
  · subst h₆; exact .inl ⟨'f', by decide, rfl, rfl⟩
  by_cases h₇ : c = '\x08'
  · subst h₇; exact .inl ⟨'b', by decide, rfl, rfl⟩
  have h₆' : ¬c.toNat = 0x0C := fun h => h₆ (Char.toNat_inj.1 h)
  have h₇' : ¬c.toNat = 0x08 := fun h => h₇ (Char.toNat_inj.1 h)
  rw [quotedChar, if_neg h₁, if_neg h₂, if_neg h₃, if_neg h₄, if_neg h₅, if_neg h₆', if_neg h₇']
  right
  by_cases hctl : c.toNat < 0x20
  · left
    rw [if_pos hctl, unitEscapes, if_pos (by omega)]
  rw [if_neg hctl]
  by_cases hhigh : asciiOnly = true ∧ 0x7E < c.toNat
  · left
    rw [if_pos hhigh, unitEscapes]
  · right
    rw [if_neg hhigh]
    exact ⟨h₁, h₂, Nat.le_of_not_lt hctl, rfl⟩

/-- Every character is read from what it is quoted as. -/
theorem textBody_quotedChar (asciiOnly : Bool) (c : Char)
    (h : textBody whole budget more = .ok (body, after)) :
    textBody whole (budget + 1) (quotedChar asciiOnly c ++ more) = .ok (c :: body, after) := by
  rcases quotedChar_cases asciiOnly c with ⟨letter, hl, hc, hq⟩ | hq | ⟨hquote, hback, hctl, hq⟩
  · rw [hq]
    exact textBody_letter hl hc h
  · rw [hq]
    exact textBody_unitEscapes c h
  · rw [hq]
    exact textBody_plain hquote hback hctl h

/-! ## Texts -/

theorem quotedChar_ne_nil (asciiOnly : Bool) (c : Char) : quotedChar asciiOnly c ≠ [] := by
  rcases quotedChar_cases asciiOnly c with ⟨letter, -, -, hq⟩ | hq | ⟨-, -, -, hq⟩
  · simp [hq]
  · rw [hq, unitEscapes]
    split
    · exact List.cons_ne_nil _ _
    · exact List.append_ne_nil_of_left_ne_nil (List.cons_ne_nil _ _) _
  · simp [hq]

/-- Every character takes one step, so that the induction is on the text. -/
theorem textBody_quoted (asciiOnly : Bool) (t : Text) (hb : t.length < budget) :
    textBody whole budget (t.flatMap (quotedChar asciiOnly) ++ '"' :: after) = .ok (t, after) := by
  induction t generalizing budget with
  | nil =>
    cases budget with
    | zero => cases hb
    | succ budget => rfl
  | cons c t ih =>
    cases budget with
    | zero => cases hb
    | succ budget =>
      rw [List.flatMap_cons, List.append_assoc]
      exact textBody_quotedChar asciiOnly c (ih (by simpa using hb))

/-- A quoted text is read as it was, whatever follows it. -/
theorem readText_quote (asciiOnly : Bool) (t after : Text) :
    ∃ rest, quote asciiOnly t ++ after = '"' :: rest ∧ readText rest = .ok (t, after) := by
  refine ⟨t.flatMap (quotedChar asciiOnly) ++ '"' :: after, by simp [quote],
    textBody_quoted asciiOnly t ?_⟩
  have hl : t.length ≤ (t.flatMap (quotedChar asciiOnly)).length :=
    Text.length_le_flatMap fun c _ => quotedChar_ne_nil asciiOnly c
  rw [List.length_append]
  omega

end ModernControls.Json
