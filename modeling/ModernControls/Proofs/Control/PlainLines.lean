import ModernControls.Proofs.Control.QuotedLines
import ModernControls.Proofs.Formula.Reversed

/-!
# Plain values that look like YAML

A value without quotation marks may look like a collection, an alias, a tag, a block or a truth
value to a YAML reader, although it is meant as the text that it is. Such values are put between
quotation marks before a text is read, so they are read as texts, character by character.

Two kinds of values are no such texts: the empty brackets, and the headers of blocks, which a value
is if it begins like one.

Results:
- `treatment_of_isMistakable`: such a value is quoted whole;
- `ofText_keyLine`: its line by itself is read as a map with the text in quotation marks;
- `parse_wholeLines`: in a control every such value is read as its text;
- `reads_mistakable`: both for one key and one value.
-/
namespace ModernControls

open Yaml Formula

namespace Formula

/-- Whether a printable ASCII value without blanks around it is no formula, no comment, not between
quotation marks, no pair of empty brackets and no header of a block, but holds a character with a
meaning in YAML, begins with a reserved one, or is a word for a truth value other than the two that
are meant as such. -/
structure IsMistakable (value : Text) : Prop where
  printable : ∀ c ∈ value, 0x20 ≤ c.toNat ∧ c.toNat ≤ 0x7E
  start : ∀ c ∈ value.head?, c ∉ [' ', formulaSign, '#', '"', '\'']
  finish : value.getLast? ≠ some ' '
  brackets : value ≠ ['\x7b', '\x7d'] ∧ value ≠ ['[', ']']
  header : isBlockHeader value = false
  looks : (∃ c ∈ value, c ∈ specialChars) ∨ value.head? = some '@' ∨ value.head? = some '\x60'
    ∨ value.map Char.toLower ∈ truthWords ∧ value ≠ "true".toList ∧ value ≠ "false".toList

namespace IsMistakable

variable {value : Text}

theorem exists_cons (h : IsMistakable value) : ∃ c rest, value = c :: rest := by
  refine List.exists_cons_of_ne_nil ?_
  rintro rfl
  rcases h.looks with ⟨c, hc, -⟩ | h | h | ⟨h, -⟩
  · cases hc
  · cases h
  · cases h
  · exact absurd h (by decide)

/-- The only printable character that is a blank is the space. -/
theorem not_isBlank {c : Char} (hp : 0x20 ≤ c.toNat ∧ c.toNat ≤ 0x7E) (hne : c ≠ ' ') :
    isBlank c = false := by
  have hn : c.toNat ≠ 0x20 := fun he => hne (Char.toNat_inj.1 he)
  simp only [isBlank, Bool.or_eq_false_iff, Bool.and_eq_false_iff, decide_eq_false_iff_not]
  omega

theorem trimEnd_eq (h : IsMistakable value) : value.trimEnd = value :=
  Text.trimEnd_eq fun c hc => not_isBlank (h.printable c (List.mem_of_getLast? hc)) fun he =>
    h.finish (he ▸ hc)

theorem begins (h : IsMistakable value) : Begins value := by
  intro c hc
  have hspace : c ≠ ' ' := fun he => h.start c hc (by simp [he])
  have htab : c ≠ '\t' := by
    rintro rfl
    exact absurd (h.printable _ (List.mem_of_head? hc)).1 (by decide)
  simp [isSpaceOrTab, hspace, htab]

theorem not_mem (h : IsMistakable value) {c : Char} (hc : c.toNat < 0x20) : c ∉ value :=
  fun hm => absurd (h.printable c hm).1 (Nat.not_le.2 hc)

theorem safe (h : IsMistakable value) : ∀ c ∈ value, isSafe c = true := by
  intro c hc
  have hp := h.printable c hc
  simp only [isSafe, Bool.and_eq_true, Bool.not_eq_true', Bool.and_eq_false_iff,
    decide_eq_true_eq, decide_eq_false_iff_not]
  omega

/-- In ASCII the case of a letter is the only thing that does not matter. -/
theorem isStrayTruth (h : IsMistakable value) (hword : value.map Char.toLower ∈ truthWords)
    (htrue : value ≠ "true".toList) (hfalse : value ≠ "false".toList) :
    Formula.isStrayTruth value = true := by
  have hcase : value.map caseless = value.map Char.toLower :=
    List.map_congr_left fun c hc => by
      refine if_neg ?_
      rintro rfl
      exact absurd (h.printable _ hc).2 (by decide)
  rw [Formula.isStrayTruth, hcase, Bool.and_eq_true, Bool.and_eq_true]
  exact ⟨⟨List.contains_iff_mem.2 hword, decide_eq_true htrue⟩, decide_eq_true hfalse⟩

theorem needsQuotes (h : IsMistakable value) (key : Text) :
    Formula.needsQuotes key value = true := by
  obtain ⟨c, rest, rfl⟩ := h.exists_cons
  have hstart := h.start c rfl
  simp only [List.mem_cons, List.not_mem_nil, or_false, not_or] at hstart
  rw [Formula.needsQuotes, if_neg (by simp [hstart, h.brackets])]
  rcases h.looks with ⟨d, hd, hspecial⟩ | hat | htick | ⟨hword, htrue, hfalse⟩
  · have hany : (c :: rest).any specialChars.contains = true :=
      List.any_eq_true.2 ⟨d, hd, List.contains_iff_mem.2 hspecial⟩
    rw [hany, Bool.or_true]
  · simp [show c = '@' by simpa using hat]
  · simp [show c = '\x60' by simpa using htick]
  · simp [h.isStrayTruth hword htrue hfalse]

end IsMistakable

variable {key value t : Text}

/-- Such a value is quoted whole, behind any key. -/
theorem treatment_of_isMistakable (h : IsMistakable value) (key : Text) :
    treatment key value = .ok (.quote value) := by
  obtain ⟨c, rest, rfl⟩ := h.exists_cons
  have hstart := h.start c rfl
  simp only [List.mem_cons, List.not_mem_nil, or_false, not_or] at hstart
  obtain ⟨-, hsign, hcomment, hquote, -⟩ := hstart
  rw [treatment, if_neg hsign, h.trimEnd_eq, treatmentOfPlain, if_neg hquote, if_neg hcomment,
    h.header, h.needsQuotes key]
  rfl

/-- A value that is quoted behind a key on a line by itself. -/
theorem escape_keyLine (hk : IsLettered key) (hb : Begins value) (hone : LineEnd.OneLine value)
    (ht : treatment key.trim value = .ok (.quote t)) :
    escape (key ++ ':' :: ' ' :: value) = .ok (key ++ ':' :: ' ' :: Json.quote false t) := by
  have hhead : (⟨0, 0, some (.plain key)⟩ : Head).text = key ++ [':'] := by
    simp [Head.text, Head.lead, Head.mark, Word.written, Text.spaces]
  have hline : escapeLine (key ++ ':' :: ' ' :: value)
      = .ok (key ++ ':' :: ' ' :: Json.quote false t, none) := by
    have hrow := Row.escapeLine_bareKey (h := ⟨0, 0, some (.plain key)⟩)
      (fun w hw => by cases hw; exact hk.isPlainText) (hk.bareKey? (Nat.zero_le _)) hb
    rw [hhead, ht, List.append_assoc, List.singleton_append] at hrow
    rw [hrow]
    simp [Except.map, LineEnd.first, Word.written_ofJson]
  have hfeed : '\n' ∉ key ++ ':' :: ' ' :: value := by
    simpa using ⟨hk.not_mem (by decide), hone.1⟩
  have hreturn : '\r' ∉ key ++ ':' :: ' ' :: value := by
    simpa using ⟨hk.not_mem (by decide), hone.2⟩
  rw [escape, Text.unifyBreaks_eq hreturn, Text.lines, Text.split_of_not_mem hfeed, escapeLines,
    if_neg (by simp [inBlock]), hline]
  rfl

end Formula

namespace Document

open Outline

variable {name tag key value : Text} {lines : List (Text × Text)}

/-- A key with a quoted text behind it, by itself, is read as a map of the two. -/
theorem ofText_keyLine (hk : IsName key) (hsafe : ∀ c ∈ value, isSafe c = true) :
    Yaml.Tree.ofText .reduced (key ++ ':' :: ' ' :: Json.quote false value)
      = .ok (.map [(.text key .plain, .text value .quoted)] : PlainValue) := by
  have hkey : (Word.plain key).Sound ∧ (Word.plain key).written.length ≤ Lexer.keyReach :=
    ⟨hk.lettered.isPlainText, hk.short.trans (by decide)⟩
  have hword : (Word.ofJson value).Sound := Word.sound_json hsafe
  have hmeaning : (map [(.plain key, leaf (.word (.ofJson value)))]).meaning?
      = some (.map [(.text key .plain, .text value .quoted)] : PlainValue) := by
    have hname : (Word.plain key).tree? = some (.text key .plain : PlainValue) :=
      Word.tree?_eq_keyTree fun _ => ofScalar_of_isWord hk.toIsWord .reduced
    rw [meaning?, entryMeanings?, hname, meaning?, tree?_ofJson]
    rfl
  have htokens := tokenStream_entry hkey hword (by simp)
  rw [Word.written_ofJson] at htokens
  have hsound : (map [(.plain key, leaf (.word (.ofJson value)))]).Sound :=
    ⟨List.cons_ne_nil _ _, hkey, hword, trivial⟩
  have hread := ofText_of_tokens hsound hmeaning htokens
  obtain ⟨_, hok, rfl⟩ := hread.exists_ok (by simp [Distinct, DistinctEntries])
  exact hok

/-- Lines of values that are quoted whole. -/
def wholeLines (lines : List (Text × Text)) : List QuotedLine :=
  lines.map fun l => ⟨l.1, l.2, l.2⟩

/-- A control whose properties are texts. -/
def ofTexts (name tag : Text) (texts : List (Text × Text)) : Document :=
  .single name ⟨tag, texts.map fun l => (l.1, .ofText l.2), [], [typeKey, propertiesKey]⟩ true

theorem classifyText_of_isMistakable (h : IsMistakable value) :
    Property.classifyText value .quoted = .ofText value :=
  Property.classifyText_of_quoted fun hm =>
    h.not_mem (c := formulaMark) (by decide) (List.mem_of_head? hm)

/-- In a control every such value is read as its text. -/
theorem parse_wholeLines (hname : IsName name) (htag : IsVersioned tag)
    (hlines : ∀ l ∈ lines, IsName l.1 ∧ IsMistakable l.2) (hdistinct : (lines.map (·.1)).Nodup) :
    parse (linesText name tag (wholeLines lines)) = .ok (ofTexts name tag lines) := by
  have hsound : ∀ l ∈ wholeLines lines, l.Sound := by
    refine List.forall_mem_map.2 fun l hl => ?_
    obtain ⟨hk, hv⟩ := hlines l hl
    exact ⟨hk.lettered, hv.begins, ⟨hv.not_mem (by decide), hv.not_mem (by decide)⟩,
      treatment_of_isMistakable hv _, hv.safe⟩
  have hkeys : (wholeLines lines).map (·.key) = lines.map (·.1) := by
    simp [wholeLines, Function.comp_def]
  have hreadable : HasReadableKeys ((wholeLines lines).map (·.key)) := by
    rw [hkeys]
    refine hasReadableKeys (List.forall_mem_map.2 fun l hl => (hlines l hl).1.lettered) hdistinct
      (List.forall_mem_map.2 fun l hl => ⟨?_, shownKey_of_isWord (hlines l hl).1.toIsWord⟩)
    exact (hlines l hl).1.short.trans (by decide)
  obtain ⟨_, hparse, rfl⟩ := (parse_linesText hname htag hsound).exists_ok hreadable
  have hentries : (wholeLines lines).map QuotedLine.entry
      = lines.map fun l => (l.1, .ofText l.2) := by
    rw [wholeLines, List.map_map]
    refine List.map_congr_left fun l hl => Prod.ext ?_ ?_
    · exact shownKey_of_isWord (hlines l hl).1.toIsWord
    · exact classifyText_of_isMistakable (hlines l hl).2
  rw [hparse, shownLines, hentries,
    Table.ofEntries_of_nodup (by simpa [Function.comp_def] using hdistinct)]
  rfl

/-- A value that looks like YAML, behind a key that is a name, is put between quotation marks and
read as the text that it is: as the only entry of a map if the line stands by itself, as a text by
its classification, and as a text among the properties of any control with such lines. -/
theorem reads_mistakable (hk : IsName key) (hv : IsMistakable value) :
    (∃ escaped, escape (key ++ ':' :: ' ' :: value) = .ok escaped
        ∧ Yaml.Tree.ofText .reduced escaped
          = .ok (.map [(.text key .plain, .text value .quoted)] : PlainValue))
      ∧ (∀ path, Property.classify path (.text value .quoted) = .ok (.ofText value))
      ∧ ∀ (name tag : Text) (above below : List (Text × Text)), IsName name → IsVersioned tag →
        (∀ l ∈ above ++ below, IsName l.1 ∧ IsMistakable l.2) →
        ((above ++ (key, value) :: below).map (·.1)).Nodup →
        parse (linesText name tag (wholeLines (above ++ (key, value) :: below)))
          = .ok (ofTexts name tag (above ++ (key, value) :: below)) := by
  refine ⟨⟨_, ?_, ofText_keyLine hk hv.safe⟩, ?_, ?_⟩
  · exact escape_keyLine hk.lettered hv.begins ⟨hv.not_mem (by decide), hv.not_mem (by decide)⟩
      (treatment_of_isMistakable hv _)
  · intro path
    rw [Property.classify, classifyText_of_isMistakable hv]
  · intro name tag above below hname htag hothers hdistinct
    refine parse_wholeLines hname htag (fun l hl => ?_) hdistinct
    rcases List.mem_append.1 hl with ha | hb
    · exact hothers l (List.mem_append_left _ ha)
    · rcases List.mem_cons.1 hb with rfl | hb
      · exact ⟨hk, hv⟩
      · exact hothers l (List.mem_append_right _ hb)

/-- A value with most of what a YAML reader knows in it. -/
def crowdedValue : Text := "&a *b !c %d, \x7b[e: f]\x7d |g >h 'i' \"\\j\" # @k \x60l =m".toList

theorem reads_crowdedValue :
    IsName "Text_1".toList ∧ IsMistakable crowdedValue
      ∧ (∃ escaped, escape ("Text_1".toList ++ ':' :: ' ' :: crowdedValue) = .ok escaped
        ∧ Yaml.Tree.ofText .reduced escaped = .ok
          (.map [(.text "Text_1".toList .plain, .text crowdedValue .quoted)] : PlainValue))
      ∧ parse (linesText "B".toList "X@1".toList
          (wholeLines [("A".toList, "yEs".toList), ("Text_1".toList, crowdedValue)]))
        = .ok (ofTexts "B".toList "X@1".toList
          [("A".toList, "yEs".toList), ("Text_1".toList, crowdedValue)]) := by
  have hk : IsName "Text_1".toList := by decide +kernel
  have hv : IsMistakable crowdedValue := by
    refine ⟨by decide, ?_, by decide, by decide, by decide, .inl ⟨'&', by decide, by decide⟩⟩
    rintro c ⟨⟩
    decide
  have hword : IsMistakable "yEs".toList := by
    refine ⟨by decide, ?_, by decide, by decide, by decide, .inr (.inr (.inr (by decide)))⟩
    rintro c ⟨⟩
    decide
  have htag : IsVersioned "X@1".toList :=
    ⟨"X".toList, "1".toList, by decide +kernel, by decide +kernel, by decide +kernel,
      by decide +kernel, by decide +kernel⟩
  obtain ⟨hline, -, hcontrol⟩ := reads_mistakable hk hv
  refine ⟨hk, hv, hline, hcontrol "B".toList "X@1".toList [("A".toList, "yEs".toList)] []
    (by decide +kernel) htag ?_ (by decide)⟩
  rw [List.append_nil, List.forall_mem_singleton]
  exact ⟨by decide +kernel, hword⟩

end Document

end ModernControls
