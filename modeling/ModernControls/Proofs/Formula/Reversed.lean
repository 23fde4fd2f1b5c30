import ModernControls.Proofs.Formula.Returning
import ModernControls.Proofs.Formula.Settled

/-!
# Escaped texts put back

A text that is escaped and in which formulas are put back again should be the text that it was. It
is, if each of its lines is regular: a formula one blank behind its colon, a plain value that means
nothing to a YAML reader, a type with a version, the header of a block, or no key line with a value;
and if no line of a block holds a quoted text. There is one exception. Behind the key of types a type
with a version is quoted whatever blanks stand around the key and the type, and it is put back only
behind the key as it is, with one blank.

**Blocks (`outside`, `inside`).** Which lines belong to a block depends on the lines before them, so
the lines of a text are sorted as escaping goes through them.

Results:
- `exists_turned`: what a regular line is escaped to, and what that is put back to;
- `unescape_escape_iff`: a text of regular lines comes back just if all its types come back.
-/
namespace ModernControls

open Yaml

namespace Formula

variable {line key blanks value indent t : Text} {block : Option Nat} {lines : List Text}

/-! ## Lines of a text -/

/-- The indentation of the block that a line begins. -/
def blockOf (line : Text) : Option Nat :=
  match KeyLine.parse? line with
  | some ⟨indent, _, some (_, value)⟩ =>
    if isBlockHeader value.trimEnd then some indent.length else none
  | _ => none

/-- The lines that belong to no block. -/
def outside (block : Option Nat) : List Text → List Text
  | [] => []
  | line :: rest =>
    if inBlock block line then outside block rest else line :: outside (blockOf line) rest

/-- The lines that belong to blocks. -/
def inside (block : Option Nat) : List Text → List Text
  | [] => []
  | line :: rest =>
    if inBlock block line then line :: inside block rest else inside (blockOf line) rest

/-- Whether a value is a type with a version that is quoted behind its key. -/
structure IsType (key value : Text) : Prop where
  key : key.trim = typeKey
  version : isVersionedType value.trimEnd = true
  sign : value.head? ≠ some formulaSign
  comment : value.head? ≠ some '#'

/-- Whether a value means nothing to a YAML reader. -/
structure IsMeaningless (value : Text) : Prop where
  start : ∀ c ∈ value.head?, c ∉ [formulaSign, '"', '\'', '@', '\x60']
  special : ∀ c ∈ value, c ∉ specialChars
  truth : isStrayTruth value.trimEnd = false

/-- The values behind a key that come back, types apart. -/
inductive Regular (key : Text) : Text → Text → Prop
  | formula {f : Text} (mark : f.head? ≠ some formulaMark) (safe : ∀ c ∈ f, isSafe c = true) :
      Regular key [' '] (formulaSign :: f)
  | type {blanks value : Text} (type : IsType key value) : Regular key blanks value
  | comment {blanks value : Text} (comment : value.head? = some '#') : Regular key blanks value
  | plain {blanks value : Text} (plain : IsMeaningless value) : Regular key blanks value
  | block {blanks value : Text} (header : isBlockHeader value.trimEnd = true) :
      Regular key blanks value

/-- Whether a type stands behind its key as it is put back there. -/
structure IsExact (key blanks value : Text) : Prop where
  key : key = typeKey
  blanks : blanks = [' ']
  edge : value.trimEnd = value
  safe : ∀ c ∈ value, isSafe c = true

/-- Whether something holds of the key, the blanks and the value of a line, if it has a value. -/
def OnValue (P : Text → Text → Text → Prop) (line : Text) : Prop :=
  ∀ indent key blanks value, KeyLine.parse? line = some ⟨indent, key, some (blanks, value)⟩ →
    P key blanks value

/-- Whether a line is one that comes back, types apart. -/
def IsRegular (line : Text) : Prop := OnValue Regular line

/-- Whether the value of a line, if it is a type, stands there as it is put back. -/
def HasExactType (line : Text) : Prop :=
  OnValue (fun key blanks value => IsType key value → IsExact key blanks value) line

theorem onValue_iff {P : Text → Text → Text → Prop}
    (hk : KeyLine.parse? line = some ⟨indent, key, some (blanks, value)⟩) :
    OnValue P line ↔ P key blanks value := by
  refine ⟨fun h => h _ _ _ _ hk, fun h _ _ _ _ hk' => ?_⟩
  obtain ⟨rfl, rfl, rfl, rfl⟩ : _ ∧ _ ∧ _ ∧ _ := by simpa [hk] using hk'
  exact h

/-! ## Key lines with another value -/

/-- What stands before a key does not depend on what follows the first character of the key. -/
theorem indentOf_again {c : Char} {rest : Text} (h : indentOf line = (indent, c :: rest))
    (hc : startsKey c = true) (r : Text) : indentOf (indent ++ c :: r) = (indent, c :: r) := by
  have hdash : c ≠ '-' := by
    rintro rfl
    exact absurd hc (by decide)
  have hblank : isSpaceOrTab c = false := by
    refine Bool.eq_false_iff.2 fun hb => ?_
    simp only [isSpaceOrTab, Bool.or_eq_true, decide_eq_true_eq] at hb
    rcases hb with rfl | rfl <;> exact absurd hc (by decide)
  have hall : ∀ u : Text, ∀ d ∈ u.takeWhile isSpaceOrTab, isSpaceOrTab d = true := fun u d hd =>
    List.mem_takeWhile_imp hd
  rw [indentOf] at h
  dsimp only at h
  split at h
  · next after _ =>
    split at h
    · next hrest _ =>
      obtain ⟨-, heq⟩ := Prod.mk.inj h
      rw [hrest] at heq
      exact absurd (List.cons.inj heq).1.symm hdash
    · next hmore =>
      obtain ⟨rfl, -⟩ := Prod.mk.inj h
      obtain ⟨h1, h2⟩ := Text.takeWhile_run (hall line) (c := '-') (by decide)
        (after.takeWhile isSpaceOrTab ++ c :: r)
      obtain ⟨h3, h4⟩ := Text.takeWhile_run (hall after) hblank r
      rw [List.append_assoc, List.cons_append, indentOf, h1, h2]
      simp only [h3, h4, hmore, Bool.false_eq_true, if_false]
  · obtain ⟨rfl, -⟩ := Prod.mk.inj h
    obtain ⟨h1, h2⟩ := Text.takeWhile_run (hall line) hblank r
    rw [indentOf, h1, h2]
    dsimp only
    split
    · next heq => exact absurd (List.cons.inj heq).1 hdash
    · rfl

/-- A key line stays one when its value is replaced. -/
theorem parse?_again {old : Option (Text × Text)}
    (h : KeyLine.parse? line = some ⟨indent, key, old⟩) (hb : Begins value) :
    KeyLine.parse? (indent ++ key ++ ':' :: ' ' :: value)
      = some ⟨indent, key, some ([' '], value)⟩ := by
  rw [KeyLine.parse?] at h
  split at h
  · next before c rest hi =>
    split at h
    · next hc =>
      split at h
      · next name after hcut =>
        obtain ⟨_, -, heq⟩ := Option.map_eq_some_iff.1 h
        obtain ⟨rfl, rfl, -⟩ := KeyLine.mk.inj heq
        rw [List.append_assoc, List.cons_append, KeyLine.parse?_key (indentOf_again hi hc _) hc
          (Text.cut_append (Text.not_mem_of_cut hcut) _), KeyLine.valueOf?_space hb]
        rfl
      · cases h
    · cases h
  · cases h

/-! ## Quoted lines -/

/-- A text with a character that no text may hold stands for nothing. -/
theorem decode_unreadable {quoted : Text} (h : ∃ c ∈ quoted, isReadable c = false) :
    decode quoted = .ok none := by
  obtain ⟨c, hc, hr⟩ := h
  have hfirst : (firstUnreadable? quoted).isSome := by
    rw [firstUnreadable?, Option.isSome_map, List.find?_isSome]
    obtain ⟨i, hi, rfl⟩ := List.getElem_of_mem hc
    exact ⟨(quoted[i], i), List.mem_zipIdx_iff_getElem?.2 (by simp [hi]), by simp [hr]⟩
  obtain ⟨⟨index, d⟩, hd⟩ := Option.isSome_iff_exists.1 hfirst
  have hstream : TokenStream.ofText quoted = ⟨[], some (.unreadable index d)⟩ := by
    rw [TokenStream.ofText, hd]
  have hgraph : Graph.ofText .full quoted = .error (.unreadable index d) := by
    rw [Graph.ofText, hstream]
    rfl
  rw [decode, Yaml.Tree.ofText, hgraph]
  rfl

/-- A character that is not safe is none that the JSON writer escapes. -/
theorem quotedChar_of_not_isSafe {c : Char} (h : isSafe c = false) :
    Json.quotedChar false c = [c] ∧ ∀ d : Char, d.toNat < 0x7F → c ≠ d := by
  have hbig : 0x7F ≤ c.toNat := by
    simp only [isSafe, Bool.and_eq_false_iff, Bool.not_eq_false', Bool.and_eq_true,
      decide_eq_true_eq, decide_eq_false_iff_not] at h
    omega
  have hne : ∀ d : Char, d.toNat < 0x7F → c ≠ d := fun d hd he => by
    rw [he] at hbig
    omega
  refine ⟨?_, hne⟩
  rw [Json.quotedChar, if_neg (hne _ (by decide)), if_neg (hne _ (by decide)),
    if_neg (hne _ (by decide)), if_neg (hne _ (by decide)), if_neg (hne _ (by decide)),
    if_neg (by omega), if_neg (by omega), if_neg (by omega), if_neg (by simp)]

/-- Any character that is no break is one piece between double quotation marks. -/
theorem piece_quotedChar {c : Char} (h : isSafe c = true ∨ isBreakOrEnd c = false) :
    Piece (Json.quotedChar false c) c := by
  cases hs : isSafe c with
  | true => exact (readablePiece_quotedChar hs).1
  | false =>
    obtain ⟨hitself, hne⟩ := quotedChar_of_not_isSafe hs
    rw [hitself]
    exact .itself (hne _ (by decide)) (hne _ (by decide)) (hne _ (by decide))
      (h.resolve_left (by simp [hs]))

/-- A text each of whose characters is one piece between double quotation marks. -/
def IsPieced (t : Text) : Prop := ∀ p ∈ t.map fun c => (Json.quotedChar false c, c), Piece p.1 p.2

theorem isPieced (h : ∀ c ∈ t, isSafe c = true ∨ isBreakOrEnd c = false) : IsPieced t := by
  intro p hp
  obtain ⟨c, hc, rfl⟩ := List.mem_map.1 hp
  exact piece_quotedChar (h c hc)

theorem no_feed_quote (h : IsPieced t) : '\n' ∉ Json.quote false t := by
  rw [← Word.written_ofJson, Word.ofJson, Word.written]
  intro hc
  simp only [List.cons_append, List.mem_cons, List.mem_append, List.mem_flatMap, List.not_mem_nil,
    or_false] at hc
  rcases hc with hc | ⟨p, hp, hc⟩ | hc
  · exact absurd hc (by decide)
  · exact absurd ((h p hp).not_break _ hc) (by decide)
  · exact absurd hc (by decide)

theorem begins_quote (t : Text) : Begins (Json.quote false t) := by
  simp [Begins, Json.quote]
  decide

/-- A line with a quoted text is put back by what the text is decoded as. -/
theorem unescapeLine_quotedLine {old : Option (Text × Text)}
    (h : KeyLine.parse? line = some ⟨indent, key, old⟩) (hp : IsPieced t) :
    unescapeLine (quotedLine (indent ++ key) t) = (decode (Json.quote false t)).map fun
      | some text => restoredLines indent key (quotedLine (indent ++ key) t) text
      | none => [quotedLine (indent ++ key) t] := by
  have hquoted : quotedValue? (Json.quote false t) = some (Json.quote false t) := by
    rw [← Word.written_ofJson]
    exact quotedValue?_double hp
  rw [unescapeLine, quotedLine, parse?_again h (begins_quote t)]
  dsimp only
  rw [hquoted]
  dsimp only
  cases decode (Json.quote false t) with
  | error b => rfl
  | ok text => cases text <;> rfl

theorem decode_quote (h : ∀ c ∈ t, isSafe c = true) : decode (Json.quote false t) = .ok (some t) := by
  have := decode_word (Word.sound_json h) (by simp)
  rwa [Word.written_ofJson, Word.value_ofJson] at this

/-! ## Single lines -/

theorem blanks_of_parse? (h : KeyLine.parse? line = some ⟨indent, key, some (blanks, value)⟩) :
    blanks ≠ [] ∧ (∀ c ∈ blanks, isSpaceOrTab c = true) ∧ Begins value := by
  rw [KeyLine.parse?] at h
  split at h
  · split at h
    · split at h
      · next rest _ =>
        obtain ⟨_, hv, heq⟩ := Option.map_eq_some_iff.1 h
        obtain ⟨-, -, rfl⟩ := KeyLine.mk.inj heq
        rw [KeyLine.valueOf?] at hv
        split at hv
        · cases hv
        · dsimp only at hv
          split at hv
          · cases hv
          · next hne =>
            cases hv
            refine ⟨by simpa using hne, fun c hc => List.mem_takeWhile_imp hc, fun c hc => ?_⟩
            have hhead := List.head?_dropWhile_not isSpaceOrTab rest
            rw [hc] at hhead
            simpa using hhead
      · cases h
    · cases h
  · cases h

/-- What a key line with another value is, compared to the line itself. -/
theorem again_eq_iff (h : KeyLine.parse? line = some ⟨indent, key, some (blanks, value)⟩)
    (ht : Begins t) : indent ++ key ++ ':' :: ' ' :: t = line ↔ blanks = [' '] ∧ value = t := by
  have hline : indent ++ key ++ ':' :: (blanks ++ value) = line := KeyLine.text_of_parse? h
  obtain ⟨hne, hall, -⟩ := blanks_of_parse? h
  rw [← hline, List.append_cancel_left_eq, List.cons.injEq]
  constructor
  · rintro ⟨-, heq⟩
    obtain ⟨b, more, rfl⟩ := List.exists_cons_of_ne_nil hne
    obtain ⟨rfl, hrest⟩ := List.cons.inj heq
    cases more with
    | nil => exact ⟨rfl, hrest.symm⟩
    | cons d more =>
      have hd := hall d (by simp)
      rw [hrest] at ht
      exact absurd hd (Bool.eq_false_iff.1 (ht d rfl))
  · rintro ⟨rfl, rfl⟩
    exact ⟨rfl, rfl⟩

/-- A line, what it is escaped to, and what that is put back to. -/
structure Turns (line out back : Text) : Prop where
  escaped : escapeLine line = .ok (out, blockOf line)
  restored : unescapeLine out = .ok [back]
  outFeed : '\n' ∉ out
  backFeed : '\n' ∉ back

/-- A line without a quoted text stays when formulas are put back. -/
theorem unescapeLine_unquoted (h : quotedOn? quotedValue? line = none) :
    unescapeLine line = .ok [line] := by
  rw [unescapeLine]
  split
  · next hk =>
    rw [quotedOn?_eq hk] at h
    rw [h]
  · rfl

/-- The first character of a value is that of its trimmed form. -/
theorem head_trimmed {c d : Char} {rest more : Text} (h : Text.trimEnd (c :: rest) = d :: more) :
    d = c := by
  have hhead := Text.head_trimEnd (t := c :: rest) (h ▸ List.cons_ne_nil d more)
  rw [h] at hhead
  exact Option.some.inj hhead

theorem head_of_isBlockHeader (h : isBlockHeader t = true) :
    t.head? = some '|' ∨ t.head? = some '>' := by
  rw [isBlockHeader.eq_def] at h
  split at h
  · cases h
  · next c rest =>
    simp only [Bool.and_eq_true, Bool.or_eq_true, decide_eq_true_eq] at h
    rcases h.1 with rfl | rfl
    · exact .inl rfl
    · exact .inr rfl

theorem head_of_isBlockHeader_trimEnd (h : isBlockHeader t.trimEnd = true) :
    t.head? = some '|' ∨ t.head? = some '>' := by
  have hhead := head_of_isBlockHeader h
  have hne : t.trimEnd ≠ [] := by
    rintro he
    simp [he] at hhead
  rwa [Text.head_trimEnd hne] at hhead

/-- The treatment of what is no formula does not depend on blanks at its end. -/
theorem treatment_of_trimEnd (hsign : value.head? ≠ some formulaSign) :
    treatment key value = treatmentOfPlain key value.trimEnd := by
  cases value with
  | nil => rfl
  | cons c rest => rw [treatment, if_neg (by simpa using hsign)]

/-- What means nothing to a YAML reader and is no type stays. -/
theorem treatment_of_isMeaningless (h : IsMeaningless value) (ht : ¬IsType key value) :
    treatment key.trim value = .ok .keep := by
  have hsign : value.head? ≠ some formulaSign := fun he => h.start _ he (by simp)
  rw [treatment_of_trimEnd hsign]
  cases value with
  | nil => rfl
  | cons c rest =>
    cases htrim : Text.trimEnd (c :: rest) with
    | nil => rfl
    | cons d more =>
      have hd := head_trimmed htrim
      have hspecial : ∀ e ∈ d :: more, e ∉ specialChars := fun e he =>
        h.special e (Text.mem_of_mem_trimEnd (htrim ▸ he))
      have hstart := h.start c rfl
      subst hd
      simp only [List.mem_cons, List.not_mem_nil, or_false, not_or] at hstart
      obtain ⟨-, hdouble, hsingle, hat, htick⟩ := hstart
      by_cases hcomment : d = '#'
      · rw [treatmentOfPlain, if_neg hdouble, if_pos hcomment]
      have hblock : isBlockHeader (d :: more) = false := by
        refine Bool.eq_false_iff.2 fun hb => hspecial d List.mem_cons_self ?_
        rcases head_of_isBlockHeader hb with he | he
        · rw [show d = '|' from Option.some.inj he]
          decide
        · rw [show d = '>' from Option.some.inj he]
          decide
      have htype : (decide (key.trim = typeKey) && isVersionedType (d :: more)) = false := by
        refine Bool.eq_false_iff.2 fun hb => ht ?_
        rw [Bool.and_eq_true, decide_eq_true_eq] at hb
        exact ⟨hb.1, htrim ▸ hb.2, by simpa using hsign, by simpa using hcomment⟩
      have hany : (d :: more).any specialChars.contains = false := by
        rw [List.any_eq_false]
        exact fun e he => by simpa using hspecial e he
      have hquotes : needsQuotes key.trim (d :: more) = false := by
        rw [needsQuotes]
        split
        · rfl
        · rw [htype, ← htrim, h.truth, htrim, hany]
          simp [hat, htick]
      rw [treatmentOfPlain, if_neg hdouble, if_neg hcomment, hblock, hquotes]
      rfl

/-- A comment stays. -/
theorem treatment_of_comment (h : value.head? = some '#') : treatment key value = .ok .keep := by
  rw [treatment_of_trimEnd (by rw [h]; decide)]
  cases value with
  | nil => cases h
  | cons c rest =>
    obtain rfl : c = '#' := Option.some.inj h
    cases htrim : Text.trimEnd ('#' :: rest) with
    | nil => rfl
    | cons d more =>
      obtain rfl := head_trimmed htrim
      rw [treatmentOfPlain, if_neg (by decide), if_pos rfl]

/-- A header begins a block. -/
theorem treatment_of_isBlockHeader (h : isBlockHeader value.trimEnd = true) :
    treatment key value = .ok .block := by
  have hsign : value.head? ≠ some formulaSign := by
    rcases head_of_isBlockHeader_trimEnd h with he | he <;> rw [he] <;> decide
  have hhead := head_of_isBlockHeader h
  rw [treatment_of_trimEnd hsign]
  cases htrim : value.trimEnd with
  | nil => rw [htrim] at h; cases h
  | cons c rest =>
    rw [htrim] at h hhead
    have hmarks : c ≠ '"' ∧ c ≠ '#' := by
      rcases hhead with he | he <;> obtain rfl := Option.some.inj he <;> decide
    rw [treatmentOfPlain, if_neg hmarks.1, if_neg hmarks.2, if_pos h]

/-- A type with a version is quoted behind its key. -/
theorem treatment_of_isType (h : IsType key value) :
    treatment key.trim value = .ok (.quote value.trimEnd) := by
  have hne : value.trimEnd ≠ [] := by
    intro he
    have := h.version
    rw [he] at this
    cases this
  have hhead := Text.head_trimEnd hne
  have := treatment_versioned h.version (hhead ▸ h.sign) (hhead ▸ h.comment)
  rwa [treatment_of_trimEnd (hhead ▸ h.sign), Text.trimEnd_trimEnd, ← h.key,
    ← treatment_of_trimEnd h.sign] at this

/-- A character that is neither a blank nor safe is one that no text may hold. -/
theorem not_isReadable_of_not_isSafe {c : Char} (hb : isBlank c = false) (hs : isSafe c = false) :
    isReadable c = false := by
  have hvalid : c.toNat < 0xD800 ∨ 0xDFFF < c.toNat := by
    rcases (c.valid : c.toNat.isValidChar) with h | h
    · exact .inl h
    · exact .inr h.1
  simp only [isBlank, Bool.or_eq_false_iff, Bool.and_eq_false_iff, decide_eq_false_iff_not] at hb
  simp only [isSafe, Bool.and_eq_false_iff, Bool.not_eq_false', Bool.and_eq_true,
    decide_eq_true_eq, decide_eq_false_iff_not] at hs
  simp only [isReadable, Bool.or_eq_false_iff, Bool.and_eq_false_iff, decide_eq_false_iff_not]
  omega

/-- A character that is no blank ends no line. -/
theorem isSafe_or_not_break {c : Char} (hb : isBlank c = false) :
    isSafe c = true ∨ isBreakOrEnd c = false := by
  simp only [isBlank, Bool.or_eq_false_iff, Bool.and_eq_false_iff, decide_eq_false_iff_not] at hb
  rw [not_isBreakOrEnd_iff]
  simp only [isSafe, Bool.and_eq_true, Bool.not_eq_true', Bool.and_eq_false_iff,
    decide_eq_true_eq, decide_eq_false_iff_not]
  omega

theorem escapeLine_keep (hk : KeyLine.parse? line = some ⟨indent, key, some (blanks, value)⟩)
    (ht : treatment key.trim value = .ok .keep) : escapeLine line = .ok (line, none) := by
  rw [escapeLine, hk]
  dsimp only
  rw [ht]
  rfl

theorem escapeLine_quote (hk : KeyLine.parse? line = some ⟨indent, key, some (blanks, value)⟩)
    (ht : treatment key.trim value = .ok (.quote t)) :
    escapeLine line = .ok (quotedLine (indent ++ key) t, none) := by
  rw [escapeLine, hk]
  dsimp only
  rw [ht]
  rfl

theorem escapeLine_block (hk : KeyLine.parse? line = some ⟨indent, key, some (blanks, value)⟩)
    (ht : treatment key.trim value = .ok .block) :
    escapeLine line = .ok (line, some indent.length) := by
  rw [escapeLine, hk]
  dsimp only
  rw [ht]
  rfl

theorem blockOf_eq (hk : KeyLine.parse? line = some ⟨indent, key, some (blanks, value)⟩) :
    blockOf line = if isBlockHeader value.trimEnd then some indent.length else none := by
  rw [blockOf, hk]

/-- A line that is kept and has no quoted text stays. -/
theorem Turns.of_kept (hf : '\n' ∉ line) (he : escapeLine line = .ok (line, blockOf line))
    (hq : quotedOn? quotedValue? line = none) : Turns line line line :=
  ⟨he, unescapeLine_unquoted hq, hf, hf⟩

theorem head_no_feed (hk : KeyLine.parse? line = some ⟨indent, key, some (blanks, value)⟩)
    (hf : '\n' ∉ line) : '\n' ∉ indent ++ key ∧ '\n' ∉ value := by
  have hline : indent ++ key ++ ':' :: (blanks ++ value) = line := KeyLine.text_of_parse? hk
  rw [← hline, List.mem_append (s := indent ++ key), List.mem_cons, List.mem_append (s := blanks),
    not_or, not_or, not_or] at hf
  exact ⟨hf.1, hf.2.2.2⟩

theorem no_feed_quotedLine {head : Text} (hf : '\n' ∉ head) (hp : IsPieced t) :
    '\n' ∉ quotedLine head t := by
  rw [quotedLine, List.mem_append, List.mem_cons, List.mem_cons, not_or, not_or, not_or]
  exact ⟨hf, by decide, by decide, no_feed_quote hp⟩

/-- A formula of safe characters one blank behind its colon comes back. -/
theorem turns_formula {f : Text}
    (hk : KeyLine.parse? line = some ⟨indent, key, some ([' '], formulaSign :: f)⟩)
    (hf : '\n' ∉ line) (hmark : f.head? ≠ some formulaMark) (hsafe : ∀ c ∈ f, isSafe c = true) :
    Turns line (quotedLine (indent ++ key) (formulaMark :: f)) line := by
  have hall : ∀ c ∈ formulaMark :: f, isSafe c = true := by
    simpa using ⟨by decide, hsafe⟩
  have hp : IsPieced (formulaMark :: f) := isPieced fun c hc => .inl (hall c hc)
  obtain ⟨hhead, hvalue⟩ := head_no_feed hk hf
  have hline : indent ++ key ++ ':' :: ' ' :: formulaSign :: f = line := KeyLine.text_of_parse? hk
  refine ⟨?_, ?_, no_feed_quotedLine hhead hp, hf⟩
  · rw [escapeLine_quote hk (treatment_of_formula _ f), blockOf_eq hk, if_neg]
    intro hb
    have hhead := head_of_isBlockHeader_trimEnd hb
    simp [formulaSign] at hhead
  · have hfeed : f.contains '\n' = false := by
      simpa using fun hm => hvalue (List.mem_cons_of_mem _ hm)
    rw [unescapeLine_quotedLine hk hp, decode_quote hall]
    show Except.ok (restoredLines indent key _ (formulaMark :: f)) = _
    rw [restoredLines, if_pos rfl, if_neg hmark, hfeed]
    simp only [Bool.false_eq_true, if_false, hline]

/-- What a type becomes when it is put back: the type behind the key of types, and nothing new behind
any other key. -/
theorem restoredLines_of_isVersionedType (hv : isVersionedType t = true) (indent key line : Text) :
    restoredLines indent key line t
      = if key = typeKey then [indent ++ key ++ ':' :: ' ' :: t] else [line] := by
  have hblank := not_isBlank_versioned hv
  have hfeed : withoutFeed t = t := by
    rw [withoutFeed, if_neg]
    exact fun hlast => absurd (hblank _ (List.mem_of_getLast? hlast)) (by decide)
  cases t with
  | nil => cases hv
  | cons c rest =>
    have hmark : c ≠ formulaMark := by
      rintro rfl
      exact absurd (hblank _ List.mem_cons_self) (by decide)
    rw [restoredLines, if_neg hmark, hfeed]
    simp only [hv, and_true]

/-- A type comes back just if it stands behind its key as it is put back. -/
theorem turns_type (hk : KeyLine.parse? line = some ⟨indent, key, some (blanks, value)⟩)
    (hf : '\n' ∉ line) (ht : IsType key value) :
    ∃ out back, Turns line out back ∧ (back = line ↔ IsExact key blanks value) := by
  have hblank := not_isBlank_versioned ht.version
  have hbegins := begins_versioned ht.version
  have hp : IsPieced value.trimEnd := isPieced fun c hc => isSafe_or_not_break (hblank c hc)
  obtain ⟨hhead, hvalue⟩ := head_no_feed hk hf
  have hfeed : '\n' ∉ value.trimEnd := fun hm => hvalue (Text.mem_of_mem_trimEnd hm)
  have hescaped : escapeLine line
      = .ok (quotedLine (indent ++ key) value.trimEnd, blockOf line) := by
    rw [escapeLine_quote hk (treatment_of_isType ht), blockOf_eq hk,
      not_isBlockHeader_of_isVersionedType ht.version]
    rfl
  -- The quoted line is never the line itself, since there are no quotation marks in a type.
  have hdiffers : quotedLine (indent ++ key) value.trimEnd ≠ line := by
    rw [quotedLine, ne_eq, again_eq_iff hk (begins_quote _)]
    rintro ⟨-, heq⟩
    obtain ⟨name, version, hname, hne, hchars, -⟩ := of_isVersionedType ht.version
    obtain ⟨c, more, rfl⟩ := List.exists_cons_of_ne_nil hne
    have hvalue : value = '"' :: (Json.quote false value.trimEnd).tail := heq
    have hc : c = '"' := head_trimmed (hvalue ▸ hname)
    exact (hchars c List.mem_cons_self).2.1 hc
  by_cases hsafe : ∀ c ∈ value.trimEnd, isSafe c = true
  · have hrestored := unescapeLine_quotedLine hk hp
    rw [decode_quote hsafe] at hrestored
    replace hrestored : unescapeLine (quotedLine (indent ++ key) value.trimEnd) = .ok _ :=
      hrestored.trans (congrArg Except.ok (restoredLines_of_isVersionedType ht.version ..))
    by_cases hkey : key = typeKey
    · rw [if_pos hkey] at hrestored
      refine ⟨_, _, ⟨hescaped, hrestored, no_feed_quotedLine hhead hp, ?_⟩, ?_⟩
      · rw [List.mem_append, List.mem_cons, List.mem_cons, not_or, not_or, not_or]
        exact ⟨hhead, by decide, by decide, hfeed⟩
      · rw [again_eq_iff hk hbegins]
        constructor
        · rintro ⟨hblanks, hvalue⟩
          exact ⟨hkey, hblanks, hvalue.symm, fun c hc => hsafe c (hvalue ▸ hc)⟩
        · exact fun he => ⟨he.blanks, he.edge.symm⟩
    · rw [if_neg hkey] at hrestored
      exact ⟨_, _, ⟨hescaped, hrestored, no_feed_quotedLine hhead hp, no_feed_quotedLine hhead hp⟩,
        iff_of_false hdiffers fun he => hkey he.key⟩
  · have hnone : decode (Json.quote false value.trimEnd) = .ok none := by
      obtain ⟨c, hc, hunsafe⟩ : ∃ c ∈ value.trimEnd, isSafe c = false := by simpa using hsafe
      refine decode_unreadable ⟨c, ?_, not_isReadable_of_not_isSafe (hblank c hc) hunsafe⟩
      have hchar := (quotedChar_of_not_isSafe hunsafe).1
      simp only [Json.quote, List.cons_append, List.mem_cons, List.mem_append, List.mem_flatMap]
      exact .inr (.inl ⟨c, hc, by simp [hchar]⟩)
    have hrestored := unescapeLine_quotedLine hk hp
    rw [hnone] at hrestored
    refine ⟨_, _, ⟨hescaped, hrestored, no_feed_quotedLine hhead hp, no_feed_quotedLine hhead hp⟩,
      iff_of_false hdiffers fun he => hsafe fun c hc => he.safe c (Text.mem_of_mem_trimEnd hc)⟩

/-- What a regular line is escaped to and put back to: itself, unless it is a type that stands behind
its key in another way. -/
theorem exists_turns (h : IsRegular line) (hf : '\n' ∉ line) :
    ∃ out back, Turns line out back ∧ (back = line ↔ HasExactType line) := by
  have hbare : (∀ indent key v, KeyLine.parse? line ≠ some ⟨indent, key, some v⟩) →
      escapeLine line = .ok (line, blockOf line) ∧ quotedOn? quotedValue? line = none := by
    intro hno
    rw [escapeLine, blockOf, quotedOn?]
    rcases hk : KeyLine.parse? line with _ | ⟨indent, key, _ | v⟩
    · exact ⟨rfl, rfl⟩
    · exact ⟨rfl, rfl⟩
    · exact absurd hk (hno indent key v)
  by_cases hno : ∀ indent key v, KeyLine.parse? line ≠ some ⟨indent, key, some v⟩
  · exact ⟨line, line, .of_kept hf (hbare hno).1 (hbare hno).2,
      iff_of_true rfl fun indent key blanks value hk => absurd hk (hno indent key _)⟩
  push Not at hno
  obtain ⟨indent, key, ⟨blanks, value⟩, hk⟩ := hno
  rw [HasExactType, onValue_iff hk]
  by_cases hty : IsType key value
  · obtain ⟨out, back, ht, hiff⟩ := turns_type hk hf hty
    exact ⟨out, back, ht, hiff.trans ⟨fun he _ => he, fun he => he hty⟩⟩
  -- A line that stays and has no type comes back.
  suffices ∃ out, Turns line out line by
    obtain ⟨out, ht⟩ := this
    exact ⟨out, line, ht, iff_of_true rfl fun ht => absurd ht hty⟩
  have hunquoted : value.head? ≠ some '"' → quotedOn? quotedValue? line = none := fun hq => by
    rw [quotedOn?_eq hk, quotedValue?_of_head hq]
  cases (onValue_iff hk).1 h with
  | formula mark safe => exact ⟨_, turns_formula hk hf mark safe⟩
  | type ht => exact absurd ht hty
  | comment hc =>
    refine ⟨line, .of_kept hf ?_ (hunquoted (by rw [hc]; decide))⟩
    rw [escapeLine_keep hk (treatment_of_comment hc), blockOf_eq hk, if_neg]
    intro hb
    have hhead := head_of_isBlockHeader_trimEnd hb
    simp [hc] at hhead
  | plain hp =>
    refine ⟨line, .of_kept hf ?_ (hunquoted fun hq => hp.start _ hq (by simp))⟩
    rw [escapeLine_keep hk (treatment_of_isMeaningless hp hty), blockOf_eq hk, if_neg]
    intro hb
    rcases head_of_isBlockHeader_trimEnd hb with he | he
    · exact hp.special _ (List.mem_of_head? he) (by decide)
    · exact hp.special _ (List.mem_of_head? he) (by decide)
  | block hb =>
    have hhead := head_of_isBlockHeader_trimEnd hb
    refine ⟨line, .of_kept hf ?_ (hunquoted fun hq => by simp [hq] at hhead)⟩
    rw [escapeLine_block hk (treatment_of_isBlockHeader hb), blockOf_eq hk, if_pos hb]

/-! ## Runs of lines -/

/-- Lines are escaped and put back one by one; those of a block stay. -/
theorem exists_turned (hout : ∀ line ∈ outside block lines, IsRegular line)
    (hin : ∀ line ∈ inside block lines, quotedOn? quotedValue? line = none)
    (hf : ∀ line ∈ lines, '\n' ∉ line) :
    ∃ outs backs, escapeLines block lines = .ok outs ∧ unescapeLines outs = .ok backs
      ∧ (∀ out ∈ outs, '\n' ∉ out) ∧ (∀ back ∈ backs, '\n' ∉ back)
      ∧ backs.length = lines.length
      ∧ (backs = lines ↔ ∀ line ∈ outside block lines, HasExactType line) := by
  induction lines generalizing block with
  | nil => exact ⟨[], [], rfl, rfl, by simp, by simp, rfl, by simp [outside]⟩
  | cons line rest ih =>
    have hfeed := hf line List.mem_cons_self
    have hrest := fun l hl => hf l (List.mem_cons_of_mem line hl)
    rw [outside, inside] at *
    by_cases hb : inBlock block line = true
    · rw [if_pos hb] at *
      obtain ⟨outs, backs, he, hu, ho, hbk, hlen, hiff⟩ :=
        ih hout (fun l hl => hin l (List.mem_cons_of_mem line hl)) hrest
      have hline := unescapeLine_unquoted (hin line List.mem_cons_self)
      refine ⟨line :: outs, line :: backs, ?_, ?_, ?_, ?_, congrArg (· + 1) hlen, ?_⟩
      · rw [escapeLines, if_pos hb, he]
        rfl
      · rw [unescapeLines, hline, hu]
        rfl
      · simpa using ⟨hfeed, ho⟩
      · simpa using ⟨hfeed, hbk⟩
      · rw [List.cons.injEq, ← hiff]
        simp
    · rw [if_neg hb] at *
      obtain ⟨out, back, ht, hback⟩ := exists_turns (hout line List.mem_cons_self) hfeed
      obtain ⟨outs, backs, he, hu, ho, hbk, hlen, hiff⟩ :=
        ih (fun l hl => hout l (List.mem_cons_of_mem line hl)) hin hrest
      refine ⟨out :: outs, back :: backs, ?_, ?_, ?_, ?_, congrArg (· + 1) hlen, ?_⟩
      · rw [escapeLines, if_neg hb, ht.escaped]
        simp only [bind, Except.bind, he]
      · rw [unescapeLines, ht.restored, hu]
        rfl
      · simpa using ⟨ht.outFeed, ho⟩
      · simpa using ⟨ht.backFeed, hbk⟩
      · rw [List.cons.injEq, hiff, hback]
        simp

/-- A text of regular lines comes back when it is escaped and formulas are put back, just if every
type with a version stands behind its key as it is put back there. -/
theorem unescape_escape_iff {text : Text} (hreturn : '\r' ∉ text)
    (hout : ∀ line ∈ outside none text.lines, IsRegular line)
    (hin : ∀ line ∈ inside none text.lines, quotedOn? quotedValue? line = none) :
    (escape text >>= unescape) = .ok text
      ↔ ∀ line ∈ outside none text.lines, HasExactType line := by
  obtain ⟨outs, backs, he, hu, ho, hb, hlen, hiff⟩ :=
    exists_turned hout hin fun line hl => Text.not_mem_of_mem_lines hl
  have hpos : 0 < text.lines.length := List.length_pos_of_ne_nil (Text.split_ne_nil _ text)
  have houts : outs ≠ [] := List.ne_nil_of_length_pos (length_escapeLines he ▸ hpos)
  have hbacks : backs ≠ [] := List.ne_nil_of_length_pos (hlen ▸ hpos)
  have hback : (escape text >>= unescape) = .ok (Text.ofLines backs) := by
    rw [escape, Text.unifyBreaks_eq hreturn, he]
    show unescape (Text.ofLines outs) = _
    rw [unescape, Text.lines_ofLines houts ho, hu]
    rfl
  rw [hback, ← hiff, Except.ok.injEq]
  constructor
  · intro h
    rw [← h, Text.lines_ofLines hbacks hb]
  · rintro rfl
    exact Text.join_split _ text

/-- A formula that has to be quoted, below a type and above a block with a line that is none. -/
def mixedLines : Text := "Control: X@1\nT: =a & \"b\"\nN: |\n  k: =yes\nOn: true".toList

theorem unescape_escape_mixedLines :
    '\r' ∉ mixedLines ∧ (∀ line ∈ outside none mixedLines.lines, IsRegular line)
      ∧ (∀ line ∈ inside none mixedLines.lines, quotedOn? quotedValue? line = none)
      ∧ (escape mixedLines >>= unescape) = .ok mixedLines := by
  have houtside : outside none mixedLines.lines
      = ["Control: X@1".toList, "T: =a & \"b\"".toList, "N: |".toList, "On: true".toList] := by
    decide +kernel
  have hinside : inside none mixedLines.lines = ["  k: =yes".toList] := by decide +kernel
  have htype : KeyLine.parse? "Control: X@1".toList
    = some ⟨[], typeKey, some ([' '], "X@1".toList)⟩ := rfl
  have hformula : KeyLine.parse? "T: =a & \"b\"".toList
    = some ⟨[], ['T'], some ([' '], formulaSign :: "a & \"b\"".toList)⟩ := rfl
  have hblock : KeyLine.parse? "N: |".toList = some ⟨[], ['N'], some ([' '], ['|'])⟩ := rfl
  have hplain : KeyLine.parse? "On: true".toList
    = some ⟨[], "On".toList, some ([' '], "true".toList)⟩ := rfl
  have hout : ∀ line ∈ outside none mixedLines.lines, IsRegular line := by
    rw [houtside]
    simp only [IsRegular, List.forall_mem_cons, onValue_iff htype, onValue_iff hformula,
      onValue_iff hblock, onValue_iff hplain]
    exact ⟨.type ⟨by decide, by decide, by decide, by decide⟩, .formula (by decide) (by decide),
      .block (by decide), .plain ⟨by rintro c ⟨⟩; decide, by decide, by decide⟩, by simp⟩
  have hin : ∀ line ∈ inside none mixedLines.lines, quotedOn? quotedValue? line = none := by
    rw [hinside]
    decide
  refine ⟨by decide, hout, hin, (unescape_escape_iff (by decide) hout hin).2 ?_⟩
  rw [houtside]
  simp only [HasExactType, List.forall_mem_cons, onValue_iff htype, onValue_iff hformula,
    onValue_iff hblock, onValue_iff hplain]
  exact ⟨fun _ => ⟨by decide, rfl, by decide, by decide⟩, fun h => absurd h.key (by decide),
    fun h => absurd h.key (by decide), fun h => absurd h.key (by decide), by simp⟩

/-- Behind a key of types with a blank before its colon a type is quoted and stays so. -/
theorem not_unescape_escape_spacedKey :
    '\r' ∉ "Control : X@1".toList
      ∧ (∀ line ∈ outside none (Text.lines "Control : X@1".toList), IsRegular line)
      ∧ inside none (Text.lines "Control : X@1".toList) = []
      ∧ (escape "Control : X@1".toList >>= unescape) = .ok "Control : \"X@1\"".toList := by
  have hline : outside none (Text.lines "Control : X@1".toList) = ["Control : X@1".toList] := rfl
  have hk : KeyLine.parse? "Control : X@1".toList
    = some ⟨[], "Control ".toList, some ([' '], "X@1".toList)⟩ := rfl
  refine ⟨by decide, ?_, rfl, eq_ok_of_toOption (by decide +kernel)⟩
  rw [hline, List.forall_mem_singleton, IsRegular, onValue_iff hk]
  exact .plain ⟨by rintro c ⟨⟩; decide, by decide, by decide⟩

end Formula

end ModernControls
