import ModernControls.Proofs.Formula.KeptTrees

/-!
# Names and types in plain words

Names of controls and keys that are short words of ASCII letters, digits and low lines, and types
that are such words with slashes and perhaps a version behind them. Such a word means nothing but
itself in YAML text, as long as it is no word for a truth value or for nothing, so it is written as
it stands and read back as it stands.

Results:
- `ofScalar_of_isWord`: such a word is a text, for either schema;
- `keepsKey_of_isName`: a name fits on its line as a key;
- `IsLettered.bareKey?`: there it is found again;
- `TypeToken.unwrapped_eq`: a type without blanks and quotation marks can stand by itself.
-/
namespace ModernControls

open Yaml Layout

/-! ## Characters -/

/-- What holds of every ASCII character is checked character by character. -/
theorem forall_ascii {P : Char → Prop} (h : ∀ n < 128, P (Char.ofNat n)) {c : Char}
    (hc : c.toNat < 128) : P c := by
  have hn := h c.toNat hc
  rwa [Char.ofNat_toNat] at hn

/-- Whether a character may stand in a word: an ASCII letter or digit, a low line or a slash. -/
def isWordChar (c : Char) : Bool := c.isAlphanum || c = '_' || c = '/'

theorem isWordChar_lt {c : Char} (h : isWordChar c = true) : c.toNat < 128 := by
  have halpha : c.isAlphanum = true → c.toNat < 128 := by
    intro h
    change ((decide (65 ≤ c.val ∧ c.val ≤ 90)
      || decide (97 ≤ c.val) && decide (c.val ≤ 122))
      || decide (48 ≤ c.val) && decide (c.val ≤ 57)) = true at h
    simp only [Bool.or_eq_true, Bool.and_eq_true, decide_eq_true_eq, UInt32.le_iff_toNat_le] at h
    change ((65 ≤ c.toNat ∧ c.toNat ≤ 90) ∨ (97 ≤ c.toNat ∧ c.toNat ≤ 122))
      ∨ (48 ≤ c.toNat ∧ c.toNat ≤ 57) at h
    omega
  simp only [isWordChar, Bool.or_eq_true, decide_eq_true_eq] at h
  rcases h with (h | rfl) | rfl
  · exact halpha h
  · decide
  · decide

/-- What holds of every character of a word is checked character by character. -/
theorem forall_wordChar {P : Char → Bool}
    (h : ∀ n < 128, isWordChar (Char.ofNat n) = true → P (Char.ofNat n) = true) {c : Char}
    (hc : isWordChar c = true) : P c = true :=
  forall_ascii (P := fun c => isWordChar c = true → P c = true) h (isWordChar_lt hc) hc

theorem isInert_of_isWordChar {c : Char} (h : isWordChar c = true) : Formula.isInert c = true :=
  forall_wordChar (by decide +kernel) h

theorem not_isBlank_of_isWordChar {c : Char} (h : isWordChar c = true) :
    isBlank c = false ∧ c ≠ '"' ∧ c ≠ '\'' := by
  have hall : (!isBlank c && c ≠ '"' && c ≠ '\'') = true :=
    forall_wordChar (P := fun c => !isBlank c && c ≠ '"' && c ≠ '\'') (by decide +kernel) h
  simpa [and_assoc] using hall

/-- A letter begins no number, no date and no mark. -/
theorem of_isAlpha {c : Char} (h : c.isAlpha = true) :
    isWordChar c = true ∧ isAsciiDigit c = false ∧ c ∉ firstIndicators ++ loneIndicators ++ ['.']
      ∧ c ∉ ['+', '-', '.', '<', '~', '=', '!', '&', '*'] := by
  have hword : isWordChar c = true := by simp [isWordChar, Char.isAlphanum, h]
  have hall : (!c.isAlpha || (!isAsciiDigit c
      && !(firstIndicators ++ loneIndicators ++ ['.']).contains c
      && !(['+', '-', '.', '<', '~', '=', '!', '&', '*'].contains c))) = true :=
    forall_wordChar (P := fun c => !c.isAlpha || (!isAsciiDigit c
      && !(firstIndicators ++ loneIndicators ++ ['.']).contains c
      && !(['+', '-', '.', '<', '~', '=', '!', '&', '*'].contains c))) (by decide +kernel) hword
  rw [h] at hall
  simp only [Bool.not_true, Bool.false_or, Bool.and_eq_true, Bool.not_eq_true',
    List.contains_eq_mem, decide_eq_false_iff_not] at hall
  exact ⟨hword, hall.1.1, hall.1.2, hall.2⟩

/-! ## Words -/

/-- Whether a text begins with a letter and holds only characters of words. -/
structure IsLettered (t : Text) : Prop where
  letter : ∃ c r, t = c :: r ∧ c.isAlpha = true
  chars : ∀ c ∈ t, isWordChar c = true

namespace IsLettered

variable {t : Text}

theorem not_mem (h : IsLettered t) {c : Char} (hc : isWordChar c = false) : c ∉ t := by
  intro hm
  rw [h.chars c hm] at hc
  cases hc

/-- Such a text can be written plain. -/
theorem isPlainText (h : IsLettered t) : isPlainText t = true := by
  obtain ⟨c, r, rfl, hc⟩ := h.letter
  exact Formula.isPlainText_inert (List.cons_ne_nil c r)
    (fun d hd => isInert_of_isWordChar (h.chars d hd))
    (Formula.startsLikeIndicator_of_head r (of_isAlpha hc).2.2.1)

/-- As a key it is found again on its line, behind one dash at most. -/
theorem bareKey? (h : IsLettered t) {margin dashes : Nat} (hd : dashes ≤ 1) :
    (⟨margin, dashes, some (.plain t)⟩ : Head).bareKey? = some t := by
  have hcolon : ':' ∉ t := h.not_mem (by decide)
  obtain ⟨c, r, rfl, hc⟩ := h.letter
  have hstart : Formula.startsKey c = true :=
    forall_wordChar (P := fun c => !isBlank c && c ≠ '#' && c ≠ '\'' && c ≠ '"' && c ≠ '-')
      (by decide +kernel) (of_isAlpha hc).1
  rw [Head.bareKey?]
  exact if_pos ⟨hd, hstart, fun hm => hcolon (List.mem_cons_of_mem _ hm)⟩

/-- It is no number and no date, which begin otherwise. -/
theorem ofScalar (h : IsLettered t) (schema : Tag.Schema) : Tag.ofScalar schema t
    = if Tag.truthWords.any (·.1 = t) then .bool
      else if Tag.nullWords.contains t then .null else .str := by
  obtain ⟨c, r, rfl, hc⟩ := h.letter
  obtain ⟨-, hdigit, -, hmarks⟩ := of_isAlpha hc
  simp only [List.mem_cons, List.not_mem_nil, or_false, not_or] at hmarks
  obtain ⟨hplus, hminus, hpoint, hless, -, hsign, hbang, hand, hstar⟩ := hmarks
  have hunsigned : Tag.unsigned (c :: r) = c :: r := by
    rw [Tag.unsigned]
    unfold takeSign
    split
    · next he => exact absurd (List.cons.inj he).1 hminus
    · next he => exact absurd (List.cons.inj he).1 hplus
    · rfl
  have hzero : c ≠ '0' := by
    rintro rfl
    cases hdigit
  have hint : Tag.isUnsignedInt (c :: r) = false := by
    unfold Tag.isUnsignedInt
    split
    · next he => exact absurd (List.cons.inj he).1 hzero
    · next he => obtain ⟨rfl, rfl⟩ := List.cons.inj he; simp [hdigit]
    · rfl
  have hfraction : Tag.isFraction (c :: r) = false := by
    rw [Tag.isFraction, hunsigned]
    simp only [Tag.isUnsignedFraction, hdigit, hpoint, Bool.false_and, List.any_cons, List.any_nil,
      List.cons.injEq, false_and, decide_false, Bool.or_false]
    exact fun _ _ he => absurd (List.cons.inj he).1 hpoint
  have hmoment : Moment.isImplicit (c :: r) = false := by
    simp [Moment.isImplicit, Moment.parse?, Moment.dateAtStart, Moment.digits, hdigit]
  have hfeed : (c :: r).getLast? ≠ some '\n' := fun hl =>
    h.not_mem (c := '\n') (by decide) (List.mem_of_getLast? hl)
  rw [Tag.ofScalar, if_neg (by simp), if_neg fun hn => hfeed hn.2, Tag.ofWord, hunsigned,
    hfraction, hint, hmoment]
  simp [hless, hsign, hbang, hand, hstar]

end IsLettered

/-- The words for truth values and for nothing, in lower case. -/
def valueWords : List Text :=
  ["yes".toList, "no".toList, "on".toList, "off".toList, "true".toList, "false".toList,
    "null".toList]

/-- Whether a text begins with a letter, holds only characters of words, and is no word for a value
in any case. -/
structure IsWord (t : Text) : Prop where
  letter : ∃ c r, t = c :: r ∧ c.isAlpha = true
  chars : ∀ c ∈ t, isWordChar c = true
  free : t.map Char.toLower ∉ valueWords

variable {t : Text}

theorem isWord_iff : IsWord t ↔ t.head?.any Char.isAlpha = true ∧ (∀ c ∈ t, isWordChar c = true)
    ∧ t.map Char.toLower ∉ valueWords := by
  constructor
  · rintro ⟨⟨c, r, rfl, hc⟩, hchars, hfree⟩
    exact ⟨hc, hchars, hfree⟩
  · rintro ⟨hc, hchars, hfree⟩
    cases t with
    | nil => cases hc
    | cons c r => exact ⟨⟨c, r, rfl, hc⟩, hchars, hfree⟩

instance : DecidablePred IsWord := fun _ => decidable_of_iff' _ isWord_iff

theorem IsWord.lettered (h : IsWord t) : IsLettered t := ⟨h.letter, h.chars⟩

theorem IsWord.not_mem (h : IsWord t) {c : Char} (hc : isWordChar c = false) : c ∉ t :=
  h.lettered.not_mem hc

/-- No word is a word for a truth value or for nothing. -/
theorem IsWord.not_valueWord (h : IsWord t) :
    Tag.truthWords.any (·.1 = t) = false ∧ Tag.nullWords.contains t = false := by
  have hbool : ∀ w ∈ Tag.truthWords, w.1.map Char.toLower ∈ valueWords := by decide +kernel
  have hnull : ∀ w ∈ Tag.nullWords, w = ['~'] ∨ w.map Char.toLower ∈ valueWords := by
    decide +kernel
  constructor
  · rw [List.any_eq_false]
    intro w hw he
    have he : w.1 = t := by simpa using he
    exact h.free (he ▸ hbool w hw)
  · rw [Bool.eq_false_iff, ne_eq, List.contains_iff_mem]
    intro hm
    rcases hnull t hm with rfl | hw
    · exact h.not_mem (c := '~') (by decide) List.mem_cons_self
    · exact h.free hw

/-- A word means nothing but itself. -/
theorem ofScalar_of_isWord (h : IsWord t) (schema : Tag.Schema) : Tag.ofScalar schema t = .str := by
  obtain ⟨hbool, hnull⟩ := h.not_valueWord
  rw [h.lettered.ofScalar, hbool, hnull]
  rfl

/-! ## Names -/

/-- Whether a text can be the name of a control or a key: a word without slashes of at most a
hundred characters. -/
structure IsName (t : Text) : Prop extends IsWord t where
  short : t.length ≤ 100
  slash : '/' ∉ t

theorem isName_iff : IsName t ↔ IsWord t ∧ t.length ≤ 100 ∧ '/' ∉ t :=
  ⟨fun h => ⟨h.toIsWord, h.short, h.slash⟩, fun h => ⟨h.1, h.2.1, h.2.2⟩⟩

instance : DecidablePred IsName := fun _ => decidable_of_iff' _ isName_iff

/-- A word is written plain, also as a key. -/
theorem style_of_isWord (h : IsWord t) : Leaf.style true ⟨.str, t, none⟩ = .plain := by
  obtain ⟨c, r, ht, -⟩ := h.letter
  have hne : t.isEmpty = false := by rw [ht]; rfl
  simp [Leaf.style, Leaf.mayBePlain, Leaf.isImplicit, ofScalar_of_isWord h, hne,
    h.lettered.isPlainText]

/-- A name fits on its line as a key. -/
theorem keepsKey_of_isName (h : IsName t) : Formula.KeepsKey t := by
  have hw := h.toIsWord
  obtain ⟨c, r, ht, -⟩ := h.letter
  have hne : t.isEmpty = false := by rw [ht]; rfl
  have hlines : isMultiline t = false := by
    rw [isMultiline, List.any_eq_false]
    intro d hd hf
    have hinert := (Formula.of_isInert (isInert_of_isWordChar (h.chars d hd))).1
    simp [isInline, hf] at hinert
  have htag : (Leaf.tagText ⟨.str, t, none⟩).length = 5 :=
    (by decide +kernel : ('!' :: '!' :: (Tag.ending? .str).getD []).length = 5)
  refine ⟨t, ?_, by have := h.short; have : Lexer.keyReach = 1024 := rfl; omega⟩
  have hshort := h.short
  rw [Leaf.key?, htag]
  dsimp only
  have hfits : ¬ keyLimit ≤ 5 + t.length := by
    have hlimit : keyLimit = 128 := rfl
    omega
  rw [hne, hlines, if_neg (by simpa using hfits), style_of_isWord hw]

/-- A name is written as it stands. -/
theorem keyWord_of_isName (h : IsName t) : Formula.keyWord t = .plain t := by
  rw [Formula.keyWord, Word.ofLeaf, style_of_isWord h.toIsWord]

/-! ## Types -/

/-- A type without blanks and quotation marks can stand by itself. -/
theorem TypeToken.unwrapped_eq {tag : Text}
    (h : ∀ c ∈ tag, isBlank c = false ∧ c ≠ '"' ∧ c ≠ '\'') : unwrapped tag = tag := by
  have htrim : tag.trim = tag := Text.strip_eq fun c hc => (h c hc).1
  have hunquote : tag.unquote = tag := Text.strip_eq fun c hc => by simp [(h c hc).2]
  rw [unwrapped, htrim, hunquote, htrim]

/-- Whether a text is a type in plain words: a word without low lines, and perhaps a version of
digits and points after an at sign. -/
def IsType (tag : Text) : Prop :=
  ∃ name, IsWord name ∧ '_' ∉ name ∧ (tag = name ∨ ∃ version, version ≠ []
    ∧ (∀ c ∈ version, isAsciiDigit c = true ∨ c = '.') ∧ tag = name ++ '@' :: version)

end ModernControls
