import ModernControls.Control.Reading
import ModernControls.Proofs.Formula.Blocks
import ModernControls.Proofs.Yaml.OutlineLayout

/-!
# Texts that stay

A text of a document is written as a word, restored to a formula perhaps, and escaped again before
it is read. What is read at last need not be the word that was written, but it has to mean the same.
Which texts stay: those that no step takes for something else.

Results:
- `settles_plain`, `settles_single`, `settles_double`: what becomes of a word in each style;
- `settles_ofLeaf`: a text that stays means the same at the end.
-/
namespace ModernControls

open Yaml Layout

theorem isSafe_of_isInline {c : Char} (h : isInline c = true) : isSafe c = true := by
  have hr := isReadable_of_isInline h
  have hb := (of_isInline h).1
  rw [not_isBreakOrEnd_iff] at hb
  simp only [isInline, isOrdinary, Bool.and_eq_true, Bool.or_eq_true, decide_eq_true_eq] at h
  simp only [isReadable, Bool.or_eq_true, Bool.and_eq_true, decide_eq_true_eq] at hr
  simp only [isSafe, Bool.and_eq_true, Bool.not_eq_true', Bool.and_eq_false_iff,
    decide_eq_true_eq, decide_eq_false_iff_not]
  have hn : c ≠ '\n' := fun he => hb.1 (he ▸ rfl)
  omega

theorem Tag.ofWord_reduced {t : Text} (h : Tag.ofWord .full t = .str) :
    Tag.ofWord .reduced t = .str := by
  rw [Tag.ofWord] at h ⊢
  split_ifs at h ⊢ <;> simp_all

/-- A text that is one for the full schema is one for the reduced one. -/
theorem Tag.ofScalar_reduced {t : Text} (h : Tag.ofScalar .full t = .str) :
    Tag.ofScalar .reduced t = .str := by
  rw [Tag.ofScalar] at h ⊢
  split_ifs at h ⊢
  · exact ofWord_reduced h
  · exact ofWord_reduced h

namespace Property

/-- A text that does not begin with an equality sign means the same between quotation marks. -/
theorem classifyText_plain {t : Text} (h : t.trimStart.head? ≠ some formulaSign) :
    classifyText t .plain = classifyText t .quoted := by
  have hformula : formula? t .plain = formula? t .quoted := by
    rw [formula?, formula?]
    cases ht : t.trimStart with
    | nil => simp
    | cons c r =>
      have hc : c ≠ formulaSign := by simpa [ht] using h
      simp [hc]
  rw [classifyText, classifyText, hformula]

/-- A formula means the same after its sign and after the mark. -/
theorem classifyText_sign {f : Text} (h : f.head? ≠ some formulaMark) :
    classifyText (formulaSign :: f) .plain = classifyText (formulaMark :: f) .quoted := by
  have htwice : isMarkedTwice (formulaSign :: f) = false := by cases f <;> rfl
  have htrim : Text.trimStart (formulaSign :: f) = formulaSign :: f := rfl
  rw [classifyText_of_marked h, classifyText, formula?, htwice, htrim]
  rfl

end Property

namespace Formula

open Property

/-- Whether a text that is written as a leaf, behind a key if there is one, is not taken for
something else. -/
structure KeepsLeaf (key : Option Text) (leaf : Leaf) : Prop where
  tag : leaf.tag = .str
  literal : leaf.style false ≠ .literal
  folded : leaf.style false ≠ .folded
  unbroken : leaf.style false = .single → isMultiline leaf.text = false
  edge : leaf.style false = .plain → ∀ k, key = some k →
    needsQuotes (Text.trim k) leaf.text.trimEnd = true → leaf.text.trimEnd = leaf.text
  sign : leaf.style false = .plain → leaf.text.trimStart.head? ≠ some formulaSign
  twice : ∀ x, leaf.text = formulaMark :: formulaMark :: x → ∀ c ∈ x, isSafe c = true
  formula : ∀ x, leaf.text = formulaMark :: x → x.head? ≠ some formulaMark → Keeps x
  version : leaf.style false = .double → key = some typeKey →
    isVersionedType (withoutFeed leaf.text) = true →
      (∀ c ∈ leaf.text, isSafe c = true ∧ c ≠ '\n') ∧ leaf.text.head? ≠ some formulaSign
        ∧ leaf.text.head? ≠ some '#'

/-- Whether a line end of a restored text means a text. -/
structure Settles (h : Head) (last : LineEnd) (t : Text) : Prop where
  escapable : last.Escapable h
  sound : (last.escaped h).Sound
  means : ∃ s form, ((last.escaped h).tree? : Option PlainValue) = some (.text s form)
    ∧ classifyText s form = classifyText t .quoted

end Formula

namespace Yaml

open Formula Property

namespace LineEnd

variable {h : Head} {key t : Text} {w : Word}

theorem escaped_of_none (hk : h.bareKey? = none) (last : LineEnd) : escaped h last = last := by
  rw [escaped, hk]

theorem escaped_keep (hk : h.bareKey? = some key)
    (ht : treatment (Text.trim key) w.written = .ok .keep) : escaped h (word w) = word w := by
  simp only [escaped, hk, ht]

theorem escaped_quote (hk : h.bareKey? = some key)
    (ht : treatment (Text.trim key) w.written = .ok (.quote t)) :
    escaped h (word w) = word (.ofJson t) := by
  simp only [escaped, hk, ht]

theorem escaped_formula (hk : h.bareKey? = some key) (e : Text) :
    escaped h (formula e) = word (.ofJson (formulaMark :: e)) := by
  simp only [escaped, hk]

theorem escaped_literal (h : Head) (keeps : Bool) (lines : List Text) :
    escaped h (literal keeps lines) = literal keeps lines := by
  rw [escaped]
  split <;> rfl

/-- A word between quotation marks says its text. -/
theorem tree?_quoted {w : Word} (hw : w.style ≠ .plain) :
    ((word w).tree? : Option PlainValue) = some (.text w.value .quoted) := by
  rw [tree?, scalarTree?, if_neg hw]
  cases w with
  | plain t => exact absurd rfl hw
  | _ => rfl

end LineEnd

end Yaml

namespace Formula

open Property LineEnd

variable {h : Head} {key t : Text} {w : Word}

/-- What is quoted when it is escaped means the text that is quoted. -/
theorem Settles.of_quote {last : LineEnd} (he : last.Escapable h)
    (hq : last.escaped h = .word (.ofJson t)) (ht : ∀ c ∈ t, isSafe c = true) :
    Settles h last t := by
  refine ⟨he, ?_, t, .quoted, ?_, rfl⟩
  · rw [hq]
    exact Word.sound_json ht
  · rw [hq, tree?_quoted (by simp), Word.value_ofJson]

/-- What stays a word between quotation marks means its text. -/
theorem Settles.of_kept (hw : w.Sound) (hs : w.style ≠ .plain)
    (hq : (LineEnd.word w).escaped h = .word w) : Settles h (.word w) w.value := by
  refine ⟨.inl hw, ?_, w.value, .quoted, ?_, rfl⟩
  · rw [hq]
    exact hw
  · rw [hq, tree?_quoted hs]

/-! ## Words in each style -/

theorem isImplicit_of_style {isKey : Bool} {leaf : Leaf} (hs : leaf.style isKey = .plain) :
    leaf.tag = .ofScalar .full leaf.text := by
  have hplain : leaf.mayBePlain isKey = true := by
    rw [Leaf.style] at hs
    by_contra hn
    simp only [hn, and_false, if_false] at hs
    split_ifs at hs
  simpa [Leaf.mayBePlain, Leaf.isImplicit] using (Bool.and_eq_true_iff.1 hplain).1

theorem ne_nil_of_plain {leaf : Leaf} (htag : leaf.tag = .str) (hs : leaf.style false = .plain) :
    leaf.text ≠ [] := by
  intro he
  have := isImplicit_of_style hs
  rw [htag, he] at this
  cases this

/-- A plain text means the same, whether it is quoted or not. -/
theorem settles_plain {leaf : Leaf} {key : Option Text} (hk : KeepsLeaf key leaf)
    (hs : leaf.style false = .plain) (hh : ∀ k, h.bareKey? = some k → key = some k) :
    Settles h (.word (.plain leaf.text)) leaf.text := by
  have hplain : isPlainText leaf.text = true :=
    Word.isPlainText_of_style hs (ne_nil_of_plain hk.tag hs)
  have hsound : (Word.plain leaf.text).Sound := hplain
  have hstr : Tag.ofScalar .reduced leaf.text = .str :=
    Tag.ofScalar_reduced (hk.tag ▸ isImplicit_of_style hs).symm
  have hkept : (LineEnd.word (.plain leaf.text)).escaped h = .word (.plain leaf.text) →
      Settles h (.word (.plain leaf.text)) leaf.text := fun he => by
    refine ⟨.inl hsound, by rwa [he], leaf.text, .plain, ?_, classifyText_plain (hk.sign hs)⟩
    rw [he]
    show plainTree? leaf.text = _
    rw [plainTree?, hstr]
  cases hbare : h.bareKey? with
  | none => exact hkept (escaped_of_none hbare _)
  | some k =>
    have hsign : leaf.text.head? ≠ some formulaSign := by
      intro hf
      obtain ⟨c, r, hc⟩ := List.exists_cons_of_ne_nil (isPlainText_ne_nil hplain)
      obtain rfl : c = formulaSign := by simpa [hc] using hf
      exact hk.sign hs (by rw [hc]; rfl)
    have ht := treatment_plain hplain hsign (Text.trim k)
    by_cases hq : needsQuotes (Text.trim k) leaf.text.trimEnd = true
    · rw [if_pos hq, hk.edge hs k (hh k hbare) hq] at ht
      obtain ⟨-, -, -, -, -, -, -, -, -, hinline, -⟩ := of_isPlainText hplain
      exact .of_quote (.inl hsound) (escaped_quote hbare ht)
        fun c hc => isSafe_of_isInline (hinline c hc)
    · rw [if_neg hq] at ht
      exact hkept (escaped_keep hbare ht)

theorem settles_single (hw : (Word.single t).Sound) (h : Head) :
    Settles h (.word (.single t)) t := by
  refine .of_kept hw (by simp [Word.style]) ?_
  cases hbare : h.bareKey? with
  | none => exact escaped_of_none hbare _
  | some k => exact escaped_keep hbare (treatment_single t _)

/-- A word between double quotation marks that does not begin with the mark. -/
theorem settles_unmarked (hm : t.head? ≠ some formulaMark) (h : Head) :
    Settles h (.word (.ofLayout t)) t := by
  have hw := Word.sound_layout t
  have hv : (Word.ofLayout t).value = t := Word.value_ofLayout t
  have := Settles.of_kept (h := h) hw (by simp) ?_
  · rwa [hv] at this
  · cases hbare : h.bareKey? with
    | none => exact escaped_of_none hbare _
    | some k =>
      refine escaped_keep hbare ((treatment_double hw _).trans ?_)
      rw [← Word.ofLayout, hv, if_neg hm]

/-- A marked formula is put back on its line or as a block, and is marked again or keeps its
sign. -/
theorem settles_formula {f key : Text} (hf : Keeps f) (hbare : h.bareKey? = some key) :
    Settles h (.ofFormula f) (formulaMark :: f) := by
  have he := escapable_ofFormula hf hbare
  by_cases hfeed : '\n' ∈ f
  · obtain ⟨keeps, lines, hof, hsound, hvalue⟩ := sound_ofFormula hf hfeed
    rw [hof] at he ⊢
    refine ⟨he, by rwa [escaped_literal], formulaSign :: f, .plain, ?_, classifyText_sign hf.mark⟩
    rw [escaped_literal, tree?, hvalue]
  · rw [ofFormula_line hfeed] at he ⊢
    refine .of_quote he (escaped_formula hbare f) fun c hc => ?_
    rcases List.mem_cons.1 hc with rfl | hc
    · decide
    · exact (hf.line hfeed c hc).1

/-- A text that begins with the mark is written with two marks, and gets the second one again. -/
theorem settles_twice {x key : Text} (hx : ∀ c ∈ x, isSafe c = true)
    (hbare : h.bareKey? = some key) :
    Settles h (.word (.ofJson (formulaMark :: x))) (formulaMark :: formulaMark :: x) := by
  have hsafe : ∀ c ∈ formulaMark :: x, isSafe c = true := fun c hc => by
    rcases List.mem_cons.1 hc with rfl | hc
    · decide
    · exact hx c hc
  have hw := Word.sound_json hsafe
  refine .of_quote (.inl hw) (escaped_quote hbare ((treatment_double hw _).trans ?_)) fun c hc => ?_
  · rw [← Word.ofJson, Word.value_ofJson, List.head?_cons, if_pos rfl]
  · rcases List.mem_cons.1 hc with rfl | hc
    · decide
    · exact hsafe c hc

/-! ## Types with a version -/

/-- What a type with a version consists of. -/
theorem of_isVersionedType (hv : isVersionedType t = true) : ∃ name version,
    t = name ++ '@' :: version ∧ name ≠ []
      ∧ (∀ c ∈ name, isBlank c = false ∧ c ≠ '"' ∧ c ≠ '\'') ∧ version ≠ []
      ∧ ∀ c ∈ version, isDecimalDigit c = true ∨ c = '.' := by
  rw [isVersionedType] at hv
  split at hv
  · next name version hcut =>
    simp only [Bool.and_eq_true, Bool.not_eq_true', List.isEmpty_eq_false_iff, List.all_eq_true,
      decide_eq_true_eq, Bool.or_eq_true, ne_eq] at hv
    obtain ⟨⟨⟨hn, hname⟩, hvne⟩, hversion⟩ := hv
    exact ⟨name, version, Text.eq_of_cut hcut, hn, fun c hc => by simpa [and_assoc] using hname c hc,
      hvne, hversion⟩
  · cases hv

theorem isBlank_lt {c : Char} (h : isBlank c = true) :
    c.toNat < 0x660 ∨ c.toNat = 0x1680 ∨ (0x2000 ≤ c.toNat ∧ c.toNat ≤ 0x3000) := by
  simp only [isBlank, Bool.or_eq_true, Bool.and_eq_true, decide_eq_true_eq] at h
  omega

/-- A digit of any script is no blank. -/
theorem not_isBlank_of_isDecimalDigit {c : Char} (h : isDecimalDigit c = true) :
    isBlank c = false := by
  refine Bool.eq_false_iff.2 fun hb => ?_
  have hlt := isBlank_lt hb
  rw [isDecimalDigit, digitValue?] at h
  split at h
  · split at h
    · next hd =>
      simp only [isBlank, Bool.or_eq_true, Bool.and_eq_true, decide_eq_true_eq] at hb
      omega
    · cases h
  · next hge =>
    rw [Option.isSome_map, List.find?_isSome] at h
    obtain ⟨z, hz, hzc⟩ := h
    have hfar : ∀ z ∈ scriptZeros, z + 10 ≤ 0x1680 ∨ (0x1681 ≤ z ∧ z + 10 ≤ 0x2000) ∨ 0x3001 ≤ z := by
      decide
    have := hfar z hz
    simp only [Bool.and_eq_true, decide_eq_true_eq] at hzc
    omega

theorem ne_quote_of_isDecimalDigit {c : Char} (h : isDecimalDigit c = true) :
    c ≠ '"' ∧ c ≠ '\'' := by
  constructor
  · rintro rfl
    exact absurd h (by decide)
  · rintro rfl
    exact absurd h (by decide)

theorem trimEnd_of_isVersionedType (hv : isVersionedType t = true) : t.trimEnd = t := by
  obtain ⟨name, version, rfl, -, -, hne, hversion⟩ := of_isVersionedType hv
  refine Text.trimEnd_eq fun c hc => ?_
  have hmem : c ∈ version := by
    rw [List.getLast?_append, List.getLast?_cons] at hc
    obtain ⟨d, hd⟩ := Option.isSome_iff_exists.1 (by simpa using hne : version.getLast?.isSome)
    rw [hd] at hc
    obtain rfl : d = c := by simpa using hc
    exact List.mem_of_getLast? hd
  rcases hversion c hmem with hd | rfl
  · exact not_isBlank_of_isDecimalDigit hd
  · decide

/-- A type with a version begins no block. -/
theorem not_isBlockHeader_of_isVersionedType (hv : isVersionedType t = true) :
    isBlockHeader t = false := by
  obtain ⟨name, version, rfl, hn, hname, -, -⟩ := of_isVersionedType hv
  obtain ⟨c, name, rfl⟩ := List.exists_cons_of_ne_nil hn
  have hskip : ∀ name : Text, (∀ d ∈ name, isBlank d = false) → ∃ d r,
      (name ++ '@' :: version).dropWhile (fun c => isAsciiDigit c || c = '+' || c = '-') = d :: r
        ∧ isSpaceOrTab d = false := by
    intro name hname
    induction name with
    | nil => exact ⟨'@', version, rfl, by decide⟩
    | cons d name ih =>
      rw [List.cons_append, List.dropWhile_cons]
      split
      · exact ih fun e he => hname e (List.mem_cons_of_mem _ he)
      · refine ⟨d, _, rfl, Bool.eq_false_iff.2 fun hb => ?_⟩
        simp only [isSpaceOrTab, Bool.or_eq_true, decide_eq_true_eq] at hb
        have := hname d List.mem_cons_self
        rcases hb with rfl | rfl
        · exact absurd this (by decide)
        · exact absurd this (by decide)
  obtain ⟨d, r, hd, hb⟩ := hskip name fun d hd => (hname d (List.mem_cons_of_mem _ hd)).1
  rw [List.cons_append, isBlockHeader, hd]
  simp [hb]

/-- A type with a version is quoted behind the key of types. -/
theorem treatment_versioned (hv : isVersionedType t = true) (hsign : t.head? ≠ some formulaSign)
    (hhash : t.head? ≠ some '#') : treatment typeKey t = .ok (.quote t) := by
  have htrim := trimEnd_of_isVersionedType hv
  have hblock := not_isBlockHeader_of_isVersionedType hv
  have hv' := hv
  obtain ⟨name, version, ht, hn, hname, -, -⟩ := of_isVersionedType hv
  obtain ⟨c, name, rfl⟩ := List.exists_cons_of_ne_nil hn
  obtain ⟨-, h1, h2⟩ := hname c List.mem_cons_self
  rw [List.cons_append] at ht
  rw [ht] at htrim hblock hv' hsign hhash ⊢
  have hmem : '@' ∈ c :: (name ++ '@' :: version) := by simp
  have hbraces : c :: (name ++ '@' :: version) ≠ ['\x7b', '\x7d'] := fun he =>
    absurd (he ▸ hmem) (by decide)
  have hbrackets : c :: (name ++ '@' :: version) ≠ ['[', ']'] := fun he =>
    absurd (he ▸ hmem) (by decide)
  have hquotes : needsQuotes typeKey (c :: (name ++ '@' :: version)) = true := by
    rw [needsQuotes, if_neg (by simp [h1, h2, hbraces, hbrackets]), hv']
    rfl
  rw [treatment, if_neg (by simpa using hsign), htrim, treatmentOfPlain, if_neg h1,
    if_neg (by simpa using hhash), hblock, hquotes]
  rfl

theorem begins_versioned (hv : isVersionedType t = true) : Begins t := by
  obtain ⟨name, version, rfl, hn, hname, -⟩ := of_isVersionedType hv
  obtain ⟨c, name, rfl⟩ := List.exists_cons_of_ne_nil hn
  intro d hd
  obtain rfl : c = d := by simpa using hd
  have hb := (hname c List.mem_cons_self).1
  refine Bool.eq_false_iff.2 fun hs => ?_
  simp only [isSpaceOrTab, Bool.or_eq_true, decide_eq_true_eq] at hs
  rcases hs with rfl | rfl <;> exact absurd hb (by decide)

/-- There are no blanks in a type with a version. -/
theorem not_isBlank_versioned (hv : isVersionedType t = true) : ∀ c ∈ t, isBlank c = false := by
  obtain ⟨name, version, rfl, -, hname, -, hversion⟩ := of_isVersionedType hv
  intro c hc
  rcases List.mem_append.1 hc with hc | hc
  · exact (hname c hc).1
  · rcases List.mem_cons.1 hc with rfl | hc
    · decide
    · rcases hversion c hc with hd | rfl
      · exact not_isBlank_of_isDecimalDigit hd
      · decide

theorem oneLine_versioned (hv : isVersionedType t = true) : OneLine t :=
  ⟨fun hc => absurd (not_isBlank_versioned hv _ hc) (by decide),
    fun hc => absurd (not_isBlank_versioned hv _ hc) (by decide)⟩

theorem settles_versioned (hbare : h.bareKey? = some typeKey)
    (hv : isVersionedType t = true) (hsafe : ∀ c ∈ t, isSafe c = true)
    (hsign : t.head? ≠ some formulaSign) (hhash : t.head? ≠ some '#') :
    Settles h (.word (.plain t)) t := by
  have ht : treatment (Text.trim typeKey) t = .ok (.quote t) := treatment_versioned hv hsign hhash
  exact .of_quote (.inr ⟨begins_versioned hv, oneLine_versioned hv, typeKey, hbare, t, ht⟩)
    (escaped_quote hbare ht) hsafe

/-! ## Leaves -/

/-- What a text between double quotation marks is restored to means the text. -/
theorem settles_double {leaf : Leaf} {key : Option Text} (hk : KeepsLeaf key leaf)
    (hs : leaf.style false = .double) (hh : ∀ k, h.bareKey? = some k → key = some k) :
    Settles h (restored h (.word (.ofLayout leaf.text))) leaf.text := by
  have hv : (Word.ofLayout leaf.text).value = leaf.text := Word.value_ofLayout leaf.text
  cases hbare : h.bareKey? with
  | none =>
    rw [restored_of_none hbare]
    refine ⟨.inl (Word.sound_layout _), ?_, leaf.text, .quoted, ?_, rfl⟩
    · rw [escaped_of_none hbare]
      exact Word.sound_layout _
    · rw [escaped_of_none hbare, tree?_quoted (by simp), hv]
  | some k =>
    have hkept := settles_unmarked (t := leaf.text) (h := h)
    rw [Word.ofLayout, restored_of_some hbare, ← Word.ofLayout, restoredWord, hv]
    cases ht : leaf.text with
    | nil =>
      rw [ht] at hkept
      exact hkept (by simp)
    | cons c rest =>
      rw [ht] at hkept
      dsimp only
      by_cases hc : c = formulaMark
      · subst hc
        rw [if_pos rfl]
        by_cases hrest : rest.head? = some formulaMark
        · rw [if_pos hrest]
          obtain ⟨d, x, rfl⟩ : ∃ d x, rest = d :: x := List.exists_cons_of_ne_nil (by
            rintro rfl
            simp at hrest)
          obtain rfl : d = formulaMark := by simpa using hrest
          exact settles_twice (hk.twice x ht) hbare
        · rw [if_neg hrest]
          exact settles_formula (hk.formula rest ht hrest) hbare
      · rw [if_neg hc]
        by_cases hversion : k = typeKey ∧ isVersionedType (withoutFeed (c :: rest)) = true
        · obtain ⟨rfl, hversion⟩ := hversion
          rw [if_pos ⟨rfl, hversion⟩]
          obtain ⟨hsafe, hsign, hhash⟩ := hk.version hs (hh _ hbare) (by rw [ht]; exact hversion)
          rw [ht] at hsafe hsign hhash
          have hfeed : withoutFeed (c :: rest) = c :: rest := if_neg fun hlast =>
            (hsafe _ (List.mem_of_getLast? hlast)).2 rfl
          rw [hfeed] at hversion
          exact settles_versioned hbare hversion (fun c hc => (hsafe c hc).1) hsign hhash
        · rw [if_neg hversion]
          exact hkept (by simpa using hc)

/-- A text that stays means the same at the end. -/
theorem settles_ofLeaf {leaf : Leaf} {key : Option Text} (hk : KeepsLeaf key leaf)
    (hh : ∀ k, h.bareKey? = some k → key = some k) :
    Settles h (restored h (.ofLeaf leaf)) leaf.text := by
  have hword : LineEnd.ofLeaf leaf = .word (.ofLeaf false leaf) :=
    if_neg fun he => ne_nil_of_plain hk.tag he.1 he.2
  rw [hword, Word.ofLeaf]
  cases hs : leaf.style false with
  | plain =>
    rw [restored_of_ne (by simp)]
    exact settles_plain hk hs hh
  | single =>
    rw [restored_of_ne (by simp)]
    refine settles_single ?_ h
    have hsound := Word.sound_ofLeaf (fun he => by rw [hs] at he; cases he) hk.unbroken
    rwa [Word.ofLeaf, hs] at hsound
  | double => exact settles_double hk hs hh
  | literal => exact absurd hs hk.literal
  | folded => exact absurd hs hk.folded

end Formula

end ModernControls
