import ModernControls.Json.Writer
import ModernControls.Proofs.Decimal.Digits
import ModernControls.Proofs.Yaml.Plain

/-!
# Words

A word is a scalar on one line as it is written: plain, between single quotation marks, or between
double ones with a piece of text for each character. A word is sound if it is written so that it is
read as the word it is.

Two writers give words between double quotation marks: the layout escapes all that is not printable,
the JSON writer only what it must, so its words are sound for readable texts.

Results:
- `opens_key`: a sound word before a colon can begin a line;
- `sound_layout`: what the layout writes between double quotation marks is sound, whatever it is;
- `sound_json`: so is what the JSON writer writes, for a text of readable characters on one line.
-/
namespace ModernControls.Yaml

open Layout

/-- A scalar on one line. -/
inductive Word
  | plain (text : Text)
  | single (text : Text)
  | double (pieces : List (Text × Char))

namespace Word

/-- The text of a word. -/
def written : Word → Text
  | plain t => t
  | single t => '\'' :: t.flatMap Scalar.singleChar ++ ['\'']
  | double ps => '"' :: ps.flatMap (·.1) ++ ['"']

/-- What a word says. -/
def value : Word → Text
  | plain t => t
  | single t => t
  | double ps => ps.map (·.2)

/-- How a word is written. -/
def style : Word → ScalarStyle
  | plain _ => .plain
  | single _ => .single
  | double _ => .double

/-- Whether a word is read as it is meant. -/
def Sound : Word → Prop
  | plain t => isPlainText t = true
  | single t => ∀ c ∈ t, isInline c = true
  | double ps => ∀ p ∈ ps, Piece p.1 p.2 ∧ ∀ c ∈ p.1, isReadable c = true

/-- A text between double quotation marks as the layout writes it. -/
def ofLayout (t : Text) : Word := .double (t.map fun c => (doubleChar c, c))

/-- A text between double quotation marks as the JSON writer writes it. -/
def ofJson (t : Text) : Word := .double (t.map fun c => (Json.quotedChar false c, c))

theorem written_ofLayout (t : Text) : (ofLayout t).written = Layout.double t := by
  simp [ofLayout, written, Layout.double, List.flatMap_map]

theorem written_ofJson (t : Text) : (ofJson t).written = Json.quote false t := by
  simp [ofJson, written, Json.quote, List.flatMap_map]

@[simp] theorem value_ofLayout (t : Text) : (ofLayout t).value = t := by
  simp [ofLayout, value, Function.comp_def]

@[simp] theorem value_ofJson (t : Text) : (ofJson t).value = t := by
  simp [ofJson, value, Function.comp_def]

@[simp] theorem style_ofLayout (t : Text) : (ofLayout t).style = .double := rfl

@[simp] theorem style_ofJson (t : Text) : (ofJson t).style = .double := rfl

end Word

theorem isReadable_of_isInline {c : Char} (h : isInline c = true) : isReadable c = true := by
  simp only [isInline, isOrdinary, isFold, Bool.and_eq_true, Bool.or_eq_true, Bool.not_eq_true',
    Bool.or_eq_false_iff, decide_eq_true_eq, decide_eq_false_iff_not] at h
  simp only [isReadable, Bool.or_eq_true, Bool.and_eq_true, decide_eq_true_eq]
  obtain ⟨h, ⟨⟨hn, -⟩, -⟩, -⟩ := h
  simp only [hn, false_or] at h
  omega

namespace Word

variable {w : Word}

/-- What holds of the characters of a line, of those of pieces and of the double quotation mark
holds of all characters of a word. -/
theorem forall_written {P : Char → Prop} (h : w.Sound) (inline : ∀ c, isInline c = true → P c)
    (piece : ∀ p c, Piece p c → (∀ d ∈ p, isReadable d = true) → ∀ d ∈ p, P d) (quote : P '"') :
    ∀ c ∈ w.written, P c := by
  intro c hc
  cases w with
  | plain t =>
    obtain ⟨-, -, -, -, -, -, -, -, -, ht, -⟩ := of_isPlainText h
    exact inline c (ht c hc)
  | single t =>
    have hmark : P '\'' := inline '\'' (by decide)
    simp only [written, List.cons_append, List.mem_cons, List.mem_append, List.mem_flatMap,
      List.not_mem_nil, or_false] at hc
    rcases hc with rfl | ⟨d, hd, hc⟩ | rfl
    · exact hmark
    · by_cases hq : d = '\''
      · simp only [Scalar.singleChar, hq, if_true, List.mem_cons, List.not_mem_nil, or_false,
          or_self] at hc
        exact hc ▸ hmark
      · simp only [Scalar.singleChar, hq, if_false, List.mem_singleton] at hc
        exact hc ▸ inline d (h d hd)
    · exact hmark
  | double ps =>
    simp only [written, List.cons_append, List.mem_cons, List.mem_append, List.mem_flatMap,
      List.not_mem_nil, or_false] at hc
    rcases hc with rfl | ⟨p, hp, hc⟩ | rfl
    · exact quote
    · exact piece p.1 p.2 (h p hp).1 (h p hp).2 c hc
    · exact quote

theorem not_break (h : w.Sound) : ∀ c ∈ w.written, isBreak c = false :=
  forall_written h (fun _ => isBreak_of_isInline) (fun _ _ hp _ => hp.not_break) (by decide)

theorem readable (h : w.Sound) : ∀ c ∈ w.written, isReadable c = true :=
  forall_written h (fun _ => isReadable_of_isInline) (fun _ _ _ hr => hr) (by decide)

theorem written_ne_nil (h : w.Sound) : w.written ≠ [] := by
  cases w with
  | plain t => exact isPlainText_ne_nil h
  | single t => simp [written]
  | double ps => simp [written]

/-- A word begins with no blank and with nothing that is passed over. -/
theorem head_written (h : w.Sound) :
    ∃ c r, w.written = c :: r ∧ c ≠ ' ' ∧ c ≠ '\t' ∧ c ≠ '#' ∧ c ≠ '\uFEFF' ∧ c ≠ endChar
      ∧ isBreak c = false := by
  cases w with
  | plain t =>
    obtain ⟨c, r, rfl, hi, hf, hs, -⟩ := of_isPlainText h
    obtain ⟨hb, ht, hm⟩ := of_isInline hi
    simp only [isBreakOrEnd, Bool.or_eq_false_iff, decide_eq_false_iff_not] at hb
    refine ⟨c, r, rfl, hs, ht, ?_, hm, hb.2, hb.1⟩
    rintro rfl
    simp [firstIndicators] at hf
  | single t => exact ⟨'\'', _, rfl, by decide⟩
  | double ps => exact ⟨'"', _, rfl, by decide⟩

theorem startsWith_triple_of_append {t r : Text} {d e : Char} (hd : e ≠ d)
    (h : Text.startsWith (t ++ e :: r) [d, d, d] = true) :
    Text.startsWith t [d, d, d] = true := by
  rcases t with _ | ⟨a, _ | ⟨b, _ | ⟨c, t⟩⟩⟩
  · simp [Text.startsWith, hd] at h
  · simp [Text.startsWith, hd] at h
  · simp [Text.startsWith, hd] at h
  · simpa [Text.startsWith] using h

/-- A word does not look like a mark of a document, whatever follows it. -/
theorem not_startsWith_triple (h : w.Sound) {d e : Char} (hd : d = '-' ∨ d = '.') (he : e ≠ d)
    (r : Text) : Text.startsWith (w.written ++ e :: r) [d, d, d] = false := by
  cases w with
  | plain t =>
    obtain ⟨-, -, -, -, -, -, -, hstart, hfin, -⟩ := of_isPlainText h
    refine Bool.eq_false_iff.2 fun hc => ?_
    have ht := startsWith_triple_of_append he hc
    rcases hd with rfl | rfl
    · exact Bool.eq_false_iff.1 hstart ht
    · exact Bool.eq_false_iff.1 hfin ht
  | single t => rcases hd with rfl | rfl <;> simp [written, Text.startsWith]
  | double ps => rcases hd with rfl | rfl <;> simp [written, Text.startsWith]

/-- A word before a colon can begin a line. -/
theorem opens_key (h : w.Sound) (r : Text) : Opens (w.written ++ ':' :: r) := by
  obtain ⟨c, r', hw, hs, -, hn, hm, -, hb⟩ := head_written h
  refine ⟨?_, not_startsWith_triple h (.inl rfl) (by decide) r,
    not_startsWith_triple h (.inr rfl) (by decide) r⟩
  rw [hw]
  simpa using ⟨hs, hn, hm, hb⟩

/-- So can a word between quotation marks, whatever follows it. -/
theorem opens_quoted (h : w.Sound) (hs : w.style ≠ .plain) (r : Text) : Opens (w.written ++ r) := by
  obtain ⟨c, r', hw, hspace, -, hn, hm, -, hb⟩ := head_written h
  refine ⟨by rw [hw]; simpa using ⟨hspace, hn, hm, hb⟩, ?_, ?_⟩
  · cases w with
    | plain t => exact absurd rfl hs
    | single t => rfl
    | double ps => rfl
  · cases w with
    | plain t => exact absurd rfl hs
    | single t => rfl
    | double ps => rfl

theorem quoted_word {c : Cursor} {r : Text} (hw : w.Sound) (hs : w.style ≠ .plain)
    (h : c.rest = w.written ++ r) (hr : ∀ ch ∈ r.head?, ch ≠ '\'') :
    ∃ token : Token, Scalar.quoted w.style c = .ok (token, c.advance w.written.length)
      ∧ token.kind = .scalar w.value w.style := by
  cases w with
  | plain t => exact absurd rfl hs
  | single t =>
    have hn : c.next.rest = t.flatMap Scalar.singleChar ++ '\'' :: r := by
      rw [Cursor.rest_next, h]; simp [written]
    have hlen : t.length < c.rest.length + 1 := by
      have : t.length ≤ (t.flatMap Scalar.singleChar).length := Text.length_le_flatMap fun ch _ => by
        unfold Scalar.singleChar
        split <;> simp
      rw [h]
      simp only [written, List.length_append, List.length_cons]
      omega
    have hb := Scalar.singleBody_marks c.mark hw hlen hn hr
    refine ⟨⟨.scalar t .single, c.mark, (c.advance (single t).written.length).mark⟩, ?_, rfl⟩
    rw [Scalar.quoted, if_neg (by simp [style]), hb]
    simp [written, style, bind, Except.bind, Cursor.advance]
  | double ps =>
    have hn : c.next.rest = ps.flatMap (·.1) ++ '"' :: r := by
      rw [Cursor.rest_next, h]; simp [written]
    have hlen : ps.length < c.rest.length + 1 := by
      have : ps.length ≤ (ps.flatMap (·.1)).length :=
        Text.length_le_flatMap fun p hp => (hw p hp).1.ne_nil
      rw [h]
      simp only [written, List.length_append, List.length_cons]
      omega
    have hb := Scalar.doubleBody_pieces c.mark (fun p hp => (hw p hp).1) hlen hn
    refine ⟨⟨.scalar (ps.map (·.2)) .double, c.mark, (c.advance (double ps).written.length).mark⟩,
      ?_, rfl⟩
    rw [Scalar.quoted, if_pos (by simp [style]), hb]
    simp [written, style, bind, Except.bind, Cursor.advance]

end Word

/-! ## What writers put between double quotation marks -/

/-- A character that is read back when it is written as the JSON writer writes it: no control
character beyond ASCII, no line break but those of ASCII, and no character that no text may hold. -/
def isSafe (c : Char) : Bool :=
  let n := c.toNat
  !(0x7F ≤ n && n ≤ 0x9F) && n ≠ 0x2028 && n ≠ 0x2029 && n ≠ 0xFFFE && n ≠ 0xFFFF

/-- A piece all of whose characters a text may hold. -/
def ReadablePiece (p : Text) (c : Char) : Prop := Piece p c ∧ ∀ d ∈ p, isReadable d = true

theorem not_isBreakOrEnd_iff {c : Char} :
    isBreakOrEnd c = false ↔ c.toNat ≠ 0xA ∧ c.toNat ≠ 0xD ∧ c.toNat ≠ 0x85 ∧ c.toNat ≠ 0x2028
      ∧ c.toNat ≠ 0x2029 ∧ c.toNat ≠ 0 := by
  have key : ∀ d : Char, c = d ↔ c.toNat = d.toNat := fun d =>
    ⟨fun h => h ▸ rfl, fun h => Char.ext (UInt32.toNat_inj.1 h)⟩
  simp only [isBreakOrEnd, isBreak, endChar, key, Bool.or_eq_false_iff, decide_eq_false_iff_not]
  simp [and_assoc]

/-- A character that stands for itself. -/
theorem readablePiece_itself {c : Char} (quote : c ≠ '"') (slash : c ≠ '\\')
    (low : 0x20 ≤ c.toNat) (safe : isSafe c = true) : ReadablePiece [c] c := by
  simp only [isSafe, Bool.and_eq_true, Bool.not_eq_true', Bool.and_eq_false_iff,
    decide_eq_true_eq, decide_eq_false_iff_not] at safe
  have hvalid : c.toNat < 0xD800 ∨ 0xDFFF < c.toNat := by
    rcases (c.valid : c.toNat.isValidChar) with h | h
    · exact .inl h
    · exact .inr h.1
  refine ⟨.itself quote slash ?_ (not_isBreakOrEnd_iff.2 (by omega)), ?_⟩
  · rintro rfl
    simp at low
  · intro d hd
    rw [List.mem_singleton.1 hd]
    simp only [isReadable, Bool.or_eq_true, Bool.and_eq_true, decide_eq_true_eq]
    omega

theorem readablePiece_letter {l c : Char} (means : Scalar.escaped? l = some c)
    (one : isBreak l = false) (readable : isReadable l = true) : ReadablePiece ['\\', l] c := by
  refine ⟨.letter means one, fun d hd => ?_⟩
  simp only [List.mem_cons, List.not_mem_nil, or_false] at hd
  rcases hd with rfl | rfl
  · decide
  · exact readable

/-- A character by its code. -/
theorem readablePiece_code {l c : Char} {digits : Text} (means : Scalar.escaped? l = none)
    (size : Scalar.codeLength? l = some digits.length) (readable : isReadable l = true)
    (hex : ∀ d ∈ digits, Scalar.isHexDigit d = true ∧ isReadable d = true)
    (value : natIn? 16 digits = some c.toNat) : ReadablePiece ('\\' :: l :: digits) c := by
  refine ⟨.code means size (fun d hd => (hex d hd).1) value, fun d hd => ?_⟩
  simp only [List.mem_cons] at hd
  rcases hd with rfl | rfl | hd
  · decide
  · exact readable
  · exact (hex d hd).2

theorem hex_digitChar : ∀ d < 16, (Scalar.isHexDigit d.digitChar = true
    ∧ isReadable d.digitChar = true) ∧ Scalar.isHexDigit d.digitChar.toUpper = true
    ∧ isReadable d.digitChar.toUpper = true := by decide

theorem readablePiece_hex {l c : Char} {width : Nat} (hw : 0 < width)
    (means : Scalar.escaped? l = none) (size : Scalar.codeLength? l = some width)
    (readable : isReadable l = true) (hc : c.toNat < Nat.pow 16 width) :
    ReadablePiece ('\\' :: l :: Layout.hex width c.toNat) c := by
  refine readablePiece_code means ?_ readable (fun d hd => ?_) (natIn?_ofHex_raised width _)
  · rw [size, hex, Text.raised, List.length_map, length_ofHex hw hc]
  · obtain ⟨d', hd', rfl⟩ := List.mem_map.1 hd
    obtain ⟨n, hn, rfl⟩ := mem_ofHex hd'
    exact (hex_digitChar n hn).2

theorem escaped_escapeLetters : ∀ p ∈ escapeLetters,
    Scalar.escaped? p.2 = some p.1 ∧ isBreak p.2 = false ∧ isReadable p.2 = true := by decide

theorem readablePiece_doubleChar (c : Char) : ReadablePiece (doubleChar c) c := by
  rw [doubleChar]
  split
  · next hb =>
    simp only [isBare, Bool.and_eq_true, Bool.or_eq_true, decide_eq_true_eq] at hb
    obtain ⟨⟨⟨⟨⟨hq, hs⟩, h1⟩, h2⟩, -⟩, hr⟩ := hb
    refine readablePiece_itself hq hs (by omega) ?_
    simp only [isSafe, Bool.and_eq_true, Bool.not_eq_true', Bool.and_eq_false_iff,
      decide_eq_true_eq, decide_eq_false_iff_not]
    omega
  · split
    · next letter hl =>
      have hm : (c, letter) ∈ escapeLetters := by
        obtain ⟨l₁, l₂, he, -⟩ := List.lookup_eq_some_iff.1 hl
        rw [he]
        simp
      obtain ⟨h1, h2, h3⟩ := escaped_escapeLetters _ hm
      exact readablePiece_letter h1 h2 h3
    · dsimp only
      have hv : c.toNat < 0x110000 := by
        have hvalid : c.toNat.isValidChar := c.valid
        rcases hvalid with h | h <;> omega
      split
      · exact readablePiece_hex (by decide) (by decide) (by decide) (by decide)
          (show c.toNat < 0x100 by omega)
      · split
        · exact readablePiece_hex (by decide) (by decide) (by decide) (by decide)
            (show c.toNat < 0x10000 by omega)
        · exact readablePiece_hex (by decide) (by decide) (by decide) (by decide)
            (show c.toNat < 0x100000000 by omega)

theorem readablePiece_quotedChar {c : Char} (h : isSafe c = true) :
    ReadablePiece (Json.quotedChar false c) c := by
  rw [Json.quotedChar]
  dsimp only
  by_cases h1 : c = '"'
  · subst h1; exact readablePiece_letter (by decide) (by decide) (by decide)
  by_cases h2 : c = '\\'
  · subst h2; exact readablePiece_letter (by decide) (by decide) (by decide)
  by_cases h3 : c = '\n'
  · subst h3; exact readablePiece_letter (by decide) (by decide) (by decide)
  by_cases h4 : c = '\r'
  · subst h4; exact readablePiece_letter (by decide) (by decide) (by decide)
  by_cases h5 : c = '\t'
  · subst h5; exact readablePiece_letter (by decide) (by decide) (by decide)
  rw [if_neg h1, if_neg h2, if_neg h3, if_neg h4, if_neg h5]
  by_cases h6 : c.toNat = 0x0C
  · obtain rfl : c = '\x0C' := Char.ext (UInt32.toNat_inj.1 h6)
    exact readablePiece_letter (by decide) (by decide) (by decide)
  by_cases h7 : c.toNat = 0x08
  · obtain rfl : c = '\x08' := Char.ext (UInt32.toNat_inj.1 h7)
    exact readablePiece_letter (by decide) (by decide) (by decide)
  rw [if_neg h6, if_neg h7]
  by_cases h8 : c.toNat < 0x20
  · rw [if_pos h8]
    refine readablePiece_code (by decide) ?_ (by decide) (fun d hd => ?_) (natIn?_ofHex 4 _)
    · rw [length_ofHex (by decide) (show c.toNat < 0x10000 by omega)]
      rfl
    · obtain ⟨n, hn, rfl⟩ := mem_ofHex hd
      exact (hex_digitChar n hn).1
  · rw [if_neg h8, if_neg (by simp)]
    exact readablePiece_itself h1 h2 (by omega) h

namespace Word

/-- Between double quotation marks the layout can write any text. -/
theorem sound_layout (t : Text) : (ofLayout t).Sound := by
  intro p hp
  obtain ⟨c, -, rfl⟩ := List.mem_map.1 hp
  exact readablePiece_doubleChar c

theorem sound_json {t : Text} (h : ∀ c ∈ t, isSafe c = true) : (ofJson t).Sound := by
  intro p hp
  obtain ⟨c, hc, rfl⟩ := List.mem_map.1 hp
  exact readablePiece_quotedChar (h c hc)

end Word

end ModernControls.Yaml
