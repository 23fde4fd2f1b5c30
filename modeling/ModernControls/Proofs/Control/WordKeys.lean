import ModernControls.Proofs.Control.QuotedLines

/-!
# Keys that are words

A property keeps its key just if its key is no word for a truth value or for nothing, or is spelled
as the value is shown; two of these words that say the same are refused as one key that comes twice.

Results:
- `shownKey_eq_iff`: which identifiers come back as they are;
- `parse_formulaText`: what a control of formula lines is read as, and when it is;
- `parse_formulaText_iff`: it is read with the keys of its lines just if these come back.
-/
namespace ModernControls

open Yaml Layout Formula

/-- Whether a text is an identifier: a letter, and then letters, digits and low lines, all of them
ASCII. -/
structure IsIdentifier (t : Text) : Prop where
  letter : ∃ c r, t = c :: r ∧ c.isAlpha = true
  chars : ∀ c ∈ t, c.isAlphanum = true ∨ c = '_'

theorem IsIdentifier.lettered {t : Text} (h : IsIdentifier t) : IsLettered t where
  letter := h.letter
  chars c hc := by
    rcases h.chars c hc with hword | rfl
    · simp [isWordChar, hword]
    · decide

theorem isIdentifier_iff {t : Text} : IsIdentifier t ↔
    t.head?.any Char.isAlpha = true ∧ ∀ c ∈ t, c.isAlphanum = true ∨ c = '_' := by
  constructor
  · rintro ⟨⟨c, r, rfl, hc⟩, hchars⟩
    exact ⟨hc, hchars⟩
  · rintro ⟨hc, hchars⟩
    cases t with
    | nil => cases hc
    | cons c r => exact ⟨⟨c, r, rfl, hc⟩, hchars⟩

instance : DecidablePred IsIdentifier := fun _ => decidable_of_iff' _ isIdentifier_iff

/-- The identifiers that do not come back as they are. -/
def renamedKeys : List Text :=
  ["yes".toList, "Yes".toList, "YES".toList, "no".toList, "No".toList, "NO".toList, "on".toList,
    "On".toList, "ON".toList, "off".toList, "Off".toList, "OFF".toList, "true".toList,
    "TRUE".toList, "false".toList, "FALSE".toList, "null".toList, "Null".toList, "NULL".toList]

/-- An identifier comes back as it is just if it is none of the words for other values, or is
spelled as these are shown. -/
theorem shownKey_eq_iff {k : Text} (h : IsLettered k) : shownKey k = k ↔ k ∉ renamedKeys := by
  have htruth : ∀ e ∈ Tag.truthWords, shownKey e.1 = e.1 ↔ e.1 ∉ renamedKeys := by decide +kernel
  have hnull : ∀ w ∈ Tag.nullWords, w = ['~'] ∨ (shownKey w = w ↔ w ∉ renamedKeys) := by
    decide +kernel
  have hlisted : ∀ w ∈ renamedKeys, Table.hasKey Tag.truthWords w = true ∨ w ∈ Tag.nullWords := by
    decide +kernel
  cases hb : Table.get? Tag.truthWords k with
  | some b => exact htruth _ (Table.mem_of_get? hb)
  | none =>
    by_cases hn : k ∈ Tag.nullWords
    · exact (hnull k hn).resolve_left fun he => h.not_mem (c := '~') (by decide) (by simp [he])
    · have hself : shownKey k = k := by simp [shownKey, hb, hn]
      refine iff_of_true hself fun hm => ?_
      rcases hlisted k hm with htrue | hnone
      · rw [Table.hasKey, hb] at htrue
        cases htrue
      · exact hn hnone

/-! ## The keys of the properties -/

namespace Document

variable {name tag : Text} {formulas : List (Text × Text)}

/-- Formulas as values that are quoted. -/
def formulaLines (formulas : List (Text × Text)) : List QuotedLine :=
  formulas.map fun f => ⟨f.1, formulaSign :: f.2, formulaMark :: f.2⟩

theorem linesText_formulaLines (name tag : Text) (formulas : List (Text × Text)) :
    linesText name tag (formulaLines formulas) = formulaText name tag formulas := by
  have hlines : (formulaLines formulas).flatMap QuotedLine.line = formulas.flatMap formulaLine := by
    rw [formulaLines, List.flatMap_map]
    refine List.flatMap_congr fun f _ => ?_
    simp [QuotedLine.line, formulaLine, formulaSign]
  rw [linesText, formulaText, hlines]

theorem sound_formulaLines (hkeys : ∀ f ∈ formulas, IsLettered f.1)
    (hlines : ∀ f ∈ formulas, IsLine f.2) : ∀ l ∈ formulaLines formulas, l.Sound := by
  refine List.forall_mem_map.2 fun f hf => ?_
  have hchars := (hlines f hf).chars
  refine ⟨hkeys f hf, ?_, ⟨?_, ?_⟩, treatment_of_formula _ f.2, ?_⟩
  · rintro c ⟨⟩
    decide
  · simpa [formulaSign] using (hlines f hf).no_feed
  · simpa [formulaSign] using fun hm => (hchars _ hm).2.2 rfl
  · rintro c hc
    rcases List.mem_cons.1 hc with rfl | hc
    · decide
    · exact (hchars c hc).1

/-- The document with the formulas under the keys that are shown. -/
def shownFormulas (name tag : Text) (formulas : List (Text × Text)) : Document :=
  .single name ⟨tag, Table.ofEntries (formulas.map fun f => (shownKey f.1, .formula f.2)), [],
    [typeKey, propertiesKey]⟩ true

theorem shownLines_formulaLines (hlines : ∀ f ∈ formulas, IsLine f.2) :
    shownLines name tag (formulaLines formulas) = shownFormulas name tag formulas := by
  have hentries : (formulaLines formulas).map QuotedLine.entry
      = formulas.map fun f => (shownKey f.1, .formula f.2) := by
    rw [formulaLines, List.map_map]
    exact List.map_congr_left fun f hf => congrArg (shownKey f.1, ·)
      (Property.classifyText_of_marked (hlines f hf).mark .quoted)
  rw [shownLines, hentries, shownFormulas]

/-- A control of formula lines is read just if its keys can be, with the formulas under the keys
that are shown. -/
theorem parse_formulaText (hname : IsName name) (htag : IsVersioned tag)
    (hkeys : ∀ f ∈ formulas, IsLettered f.1) (hlines : ∀ f ∈ formulas, IsLine f.2) :
    GivesIff (HasReadableKeys (formulas.map (·.1))) (parse (formulaText name tag formulas))
      (· = shownFormulas name tag formulas) := by
  have hread := parse_linesText hname htag (sound_formulaLines hkeys hlines)
  rw [linesText_formulaLines, shownLines_formulaLines hlines] at hread
  simpa [formulaLines, Function.comp_def] using hread

/-- All keys are shown as they are, if the document with the shown keys is that of the lines. -/
theorem shownKey_of_shownFormulas
    (h : shownFormulas name tag formulas = ofFormulas name tag formulas) :
    ∀ f ∈ formulas, shownKey f.1 = f.1 := by
  have htable : (Table.ofEntries (formulas.map fun f => (shownKey f.1, .formula f.2)) : Properties)
      = formulas.map fun f => (f.1, .formula f.2) := by
    simpa [shownFormulas, Document.single, ofFormulas, Control.ofFormulas] using h
  -- As many keys are left as there were, so none has been put to another one.
  rw [Table.ofEntries_of_length (by simp [htable])] at htable
  exact fun f hf => congrArg Prod.fst (List.map_eq_map_iff.1 htable f hf)

/-- If all keys are shown as they are, the document with the shown keys is that of the lines. -/
theorem shownFormulas_of_shownKey (hdistinct : (formulas.map (·.1)).Nodup)
    (h : ∀ f ∈ formulas, shownKey f.1 = f.1) :
    shownFormulas name tag formulas = ofFormulas name tag formulas := by
  have htable : (formulas.map (fun f => (shownKey f.1, .formula f.2)) : Properties)
      = formulas.map fun f => (f.1, .formula f.2) :=
    List.map_congr_left fun f hf => by rw [h f hf]
  rw [shownFormulas, htable,
    Table.ofEntries_of_nodup (by simpa [Function.comp_def] using hdistinct)]
  rfl

/-- A control of formula lines is read with each formula under its key just if every key is short
enough and none is a word that is shown in another way. -/
theorem parse_formulaText_iff (hname : IsName name) (htag : IsVersioned tag)
    (hkeys : ∀ f ∈ formulas, IsIdentifier f.1) (hdistinct : (formulas.map (·.1)).Nodup)
    (hlines : ∀ f ∈ formulas, IsLine f.2) :
    parse (formulaText name tag formulas) = .ok (ofFormulas name tag formulas)
      ↔ ∀ f ∈ formulas, f.1.length ≤ Lexer.keyReach ∧ f.1 ∉ renamedKeys := by
  have hlettered : ∀ f ∈ formulas, IsLettered f.1 := fun f hf => (hkeys f hf).lettered
  have hread := parse_formulaText hname htag hlettered hlines
  constructor
  · intro hparse f hf
    rcases hread with ⟨⟨hshort, -⟩, d, hd, rfl⟩ | ⟨-, e, he⟩
    · have hshown := shownKey_of_shownFormulas (Except.ok.inj (hd.symm.trans hparse))
      exact ⟨hshort _ (List.mem_map_of_mem hf),
        (shownKey_eq_iff (hlettered f hf)).1 (hshown f hf)⟩
    · rw [he] at hparse
      cases hparse
  · intro h
    have hshown : ∀ f ∈ formulas, shownKey f.1 = f.1 := fun f hf =>
      (shownKey_eq_iff (hlettered f hf)).2 (h f hf).2
    obtain ⟨d, hd, rfl⟩ := hread.exists_ok (hasReadableKeys (List.forall_mem_map.2 hlettered)
      hdistinct (List.forall_mem_map.2 fun f hf => ⟨(h f hf).1, hshown f hf⟩))
    rw [hd, shownFormulas_of_shownKey hdistinct hshown]

/-- Keys that are words for values and come back: they are spelled as the values are shown, or are
only like such words. -/
def shownWords : List (Text × Text) :=
  [("True".toList, "1".toList), ("None".toList, []), ("y".toList, "\x7ba: b\x7d".toList),
    ("oN".toList, "\"no\"".toList), ("Text_2".toList, " # ".toList)]

theorem parse_shownWords :
    (IsName "B".toList ∧ IsVersioned "X@1".toList ∧ (∀ f ∈ shownWords, IsIdentifier f.1)
      ∧ (shownWords.map (·.1)).Nodup ∧ ∀ f ∈ shownWords, IsLine f.2)
      ∧ parse (formulaText "B".toList "X@1".toList shownWords)
          = .ok (ofFormulas "B".toList "X@1".toList shownWords) := by
  have hname : IsName "B".toList := by decide +kernel
  have htag : IsVersioned "X@1".toList :=
    ⟨"X".toList, "1".toList, by decide +kernel, by decide +kernel, by decide +kernel,
      by decide +kernel, by decide +kernel⟩
  have hkeys : ∀ f ∈ shownWords, IsIdentifier f.1 := by decide +kernel
  have hdistinct : (shownWords.map (·.1)).Nodup := by decide +kernel
  have hlines : ∀ f ∈ shownWords, IsLine f.2 := by decide +kernel
  exact ⟨⟨hname, htag, hkeys, hdistinct, hlines⟩,
    (parse_formulaText_iff hname htag hkeys hdistinct hlines).2 (by decide +kernel)⟩

/-- The formula of the key `yes` is read as that of the key `True`. -/
theorem parse_yesKey : IsIdentifier "yes".toList ∧ IsLine "1".toList
    ∧ parse (formulaText "B".toList "X@1".toList [("yes".toList, "1".toList)])
        = .ok (ofFormulas "B".toList "X@1".toList [("True".toList, "1".toList)]) :=
  ⟨by decide +kernel, by decide +kernel, eq_ok_of_toOption (by decide +kernel)⟩

end Document

end ModernControls
