import ModernControls.Proofs.Formula.Restored

/-!
# Escaped rows

When a text is escaped before it is read, each row keeps its head: behind a key that is found again
a formula and some words get double quotation marks, and all other ends stay. A row that begins a
block leaves the lines of the block alone, and the row after it is no line of the block, since it
stands no further to the right than the key of the block.

Results:
- `escapeLine_row`: escaping a row gives the escaped row and the block it begins;
- `escapeLines_rows`: so it does one row after the other;
- `escape_write`: and in a whole text.
-/
namespace ModernControls

open Yaml Layout

namespace Formula

/-! ## What becomes of words -/

theorem needsQuotes_of_mark {c : Char} (h : c = '\'' ∨ c = '"') (key t : Text) :
    needsQuotes key (c :: t) = false := by
  rw [needsQuotes, if_pos]
  rcases h with rfl | rfl <;> simp

/-- A plain word is quoted if it would be read as something else. -/
theorem treatment_plain {t : Text} (h : isPlainText t = true) (hf : t.head? ≠ some formulaSign)
    (key : Text) :
    treatment key t = .ok (if needsQuotes key t.trimEnd then .quote t.trimEnd else .keep) := by
  obtain ⟨c, r, rfl, -, hfirst, -⟩ := of_isPlainText h
  rw [treatment, if_neg (by simpa using hf)]
  have hhead := Text.head_trimEnd (t := c :: r)
  cases ht : Text.trimEnd (c :: r) with
  | nil => rfl
  | cons d rest =>
    rw [ht] at hhead
    obtain rfl : d = c := Option.some.inj (hhead (by simp))
    have hne : ∀ x ∈ firstIndicators, d ≠ x := fun x hx he => by
      subst he
      simp [hx] at hfirst
    rw [treatmentOfPlain, if_neg (hne '"' (by decide)), if_neg (hne '#' (by decide)), isBlockHeader]
    simp [hne '|' (by decide), hne '>' (by decide)]

theorem treatment_single (t key : Text) : treatment key (Word.single t).written = .ok .keep := by
  have htrim : (Word.single t).written.trimEnd = (Word.single t).written :=
    Text.trimEnd_append (by decide) ('\'' :: t.flatMap Scalar.singleChar)
  have hw : (Word.single t).written = '\'' :: (t.flatMap Scalar.singleChar ++ ['\'']) := rfl
  rw [hw] at htrim ⊢
  rw [treatment, if_neg (by decide), htrim, treatmentOfPlain, if_neg (by decide),
    if_neg (by decide), needsQuotes_of_mark (.inl rfl), isBlockHeader]
  rfl

/-- A word between double quotation marks stays unless its text begins with the mark. -/
theorem treatment_double {ps : List (Text × Char)} (h : (Word.double ps).Sound) (key : Text) :
    treatment key (Word.double ps).written
      = .ok (if (Word.double ps).value.head? = some formulaMark
          then .quote (formulaMark :: (Word.double ps).value) else .keep) := by
  have htrim : (Word.double ps).written.trimEnd = (Word.double ps).written :=
    Text.trimEnd_append (by decide) ('"' :: ps.flatMap fun p : Text × Char => p.1)
  have hdecode := decode_word h (by simp [Word.style])
  have hw : (Word.double ps).written = '"' :: (ps.flatMap (·.1) ++ ['"']) := rfl
  rw [hw] at htrim hdecode ⊢
  rw [treatment, if_neg (by decide), htrim, treatmentOfPlain, if_pos rfl, treatmentOfQuoted,
    hdecode]
  rfl

/-- Lines of a block stay. -/
theorem escapeLines_run {block : Option Nat} {body : List Text}
    (h : ∀ line ∈ body, inBlock block line = true) (after : List Text) :
    escapeLines block (body ++ after) = (escapeLines block after).map (body ++ ·) := by
  induction body with
  | nil =>
    rw [List.nil_append]
    cases escapeLines block after <;> rfl
  | cons line body ih =>
    rw [List.cons_append, escapeLines, if_pos (h line List.mem_cons_self),
      ih fun l hl => h l (List.mem_cons_of_mem _ hl)]
    cases escapeLines block after <;> rfl

end Formula

namespace Yaml

open Formula

namespace LineEnd

/-- What becomes of a line end when a text is escaped. -/
def escaped (h : Head) (last : LineEnd) : LineEnd :=
  match h.bareKey? with
  | none => last
  | some key =>
    match last with
    | formula e => word (.ofJson (formulaMark :: e))
    | word w =>
      match treatment (Text.trim key) w.written with
      | .ok (.quote text) => word (.ofJson text)
      | _ => word w
    | last => last

/-- A text on one line. -/
def OneLine (t : Text) : Prop := '\n' ∉ t ∧ '\r' ∉ t

/-- What may stand at the end of a row of a text that is escaped: formulas, blocks and texts that
have to be quoted stand behind a key that is found again. -/
def Escapable (h : Head) : LineEnd → Prop
  | word w => w.Sound ∨ Begins w.written ∧ OneLine w.written
      ∧ ∃ key, h.bareKey? = some key ∧ ∃ t, treatment (Text.trim key) w.written = .ok (.quote t)
  | formula e => h.bareKey?.isSome ∧ OneLine e
  | literal _ lines => h.bareKey?.isSome ∧ ∀ l ∈ lines, OneLine l
  | _ => True

/-- The indentation of the block that a line end begins. -/
def block (h : Head) : LineEnd → Option Nat
  | literal .. => some h.column
  | _ => none

@[simp] theorem escaped_nothing (h : Head) : escaped h nothing = nothing := by
  rw [escaped]
  split <;> rfl

theorem below_escaped (h : Head) (last : LineEnd) (indent : Nat) :
    (escaped h last).below indent = last.below indent := by
  rw [escaped]
  split
  · rfl
  · cases last with
    | word w => dsimp only; split <;> rfl
    | _ => rfl

end LineEnd

namespace Row

/-- A row after it has been escaped. -/
def escaped (r : Row) : Row := ⟨r.head, r.last.escaped r.head⟩

theorem quotedLine_eq {h : Head} {key : Text} (hk : h.bareKey? = some key) (text : Text) :
    quotedLine (h.lead ++ key) text = h.text ++ (LineEnd.word (.ofJson text)).first := by
  rw [← (text_of_bareKey? hk).1, quotedLine, LineEnd.first, Word.written_ofJson]
  simp

/-- What becomes of a row behind a key that is found again. -/
theorem escapeLine_bareKey {h : Head} {key value : Text} (hs : h.Sound)
    (hk : h.bareKey? = some key) (hb : Begins value) :
    escapeLine (h.text ++ ' ' :: value) = (treatment (Text.trim key) value).map fun
      | .keep => (h.text ++ ' ' :: value, none)
      | .quote text => (h.text ++ (LineEnd.word (.ofJson text)).first, none)
      | .block => (h.text ++ ' ' :: value, some h.column) := by
  rw [escapeLine, parse?_bareKey hs hk hb]
  dsimp only
  cases treatment (Text.trim key) value with
  | error b => rfl
  | ok x =>
    cases x with
    | quote text => exact congrArg (fun l => Except.ok (l, none)) (quotedLine_eq hk text)
    | keep => rfl
    | block => exact congrArg (fun n => Except.ok (_, some n)) (Head.length_lead h)

theorem treatment_block (key : Text) (keeps : Bool) :
    treatment key ['|', Scalar.blockSign keeps] = .ok .block := by
  cases keeps <;> rfl

/-- A word that can be read never begins a block. -/
theorem treatment_word {w : Word} (hw : w.Sound) (key : Text) :
    treatment key w.written = .ok .keep ∨ ∃ t, treatment key w.written = .ok (.quote t) := by
  cases w with
  | single t => exact .inl (treatment_single t key)
  | double ps =>
    rw [treatment_double hw key]
    split
    · exact .inr ⟨_, rfl⟩
    · exact .inl rfl
  | plain t =>
    by_cases hf : t.head? = some formulaSign
    · obtain ⟨c, r, rfl⟩ := List.exists_cons_of_ne_nil (isPlainText_ne_nil hw)
      obtain rfl : c = formulaSign := by simpa using hf
      exact .inr ⟨_, treatment_of_formula key r⟩
    · show treatment key t = _ ∨ ∃ u, treatment key t = _
      rw [treatment_plain hw hf key]
      split
      · exact .inr ⟨_, rfl⟩
      · exact .inl rfl

/-- A word of a row begins a value behind a key that is found again, and begins no block there. -/
theorem treatment_of_escapable {h : Head} {w : Word} {key : Text}
    (hl : (LineEnd.word w).Escapable h) (hbare : h.bareKey? = some key) :
    Begins w.written ∧ (treatment (Text.trim key) w.written = .ok .keep
      ∨ ∃ t, treatment (Text.trim key) w.written = .ok (.quote t)) := by
  rcases hl with hl | ⟨hbegins, -, key', hkey, ht⟩
  · exact ⟨by simpa using Head.begins_word hl [], treatment_word hl _⟩
  · obtain rfl : key = key' := Option.some.inj (hbare.symm.trans hkey)
    exact ⟨hbegins, .inr ht⟩

/-- A row without a key that is found again is no line of a key. -/
theorem parse?_of_bareKey?_eq_none {h : Head} {last : LineEnd} (hs : h.Sound)
    (hl : last.Escapable h) (hbare : h.bareKey? = none) :
    KeyLine.parse? (h.text ++ last.first) = none := by
  cases hk : h.key with
  | some w => rw [Head.parse?_text hk (hs w hk), hbare]
  | none =>
    refine Head.parse?_item hk (fun w hw => ?_) (fun e he => ?_) fun keeps lines hb => ?_
    · subst hw
      rcases hl with hl | ⟨-, -, key, hkey, -⟩
      · exact hl
      · rw [hbare] at hkey; cases hkey
    · subst he
      rw [LineEnd.Escapable, hbare] at hl
      cases hl.1
    · subst hb
      rw [LineEnd.Escapable, hbare] at hl
      cases hl.1

/-- A row becomes the escaped one, and may begin a block. -/
theorem escapeLine_row {h : Head} {last : LineEnd} (hs : h.Sound) (hl : last.Escapable h) :
    escapeLine (h.text ++ last.first)
      = .ok (h.text ++ (last.escaped h).first, last.block h) := by
  cases hbare : h.bareKey? with
  | none =>
    have hparse := parse?_of_bareKey?_eq_none hs hl hbare
    have hblock : last.block h = none := by
      cases last with
      | literal keeps lines =>
        rw [LineEnd.Escapable, hbare] at hl
        cases hl.1
      | _ => rfl
    rw [escapeLine, hparse, LineEnd.escaped, hbare, hblock]
  | some key =>
    cases last with
    | nothing =>
      have hw := (text_of_bareKey? hbare).2
      rw [LineEnd.escaped, hbare, escapeLine, Head.parse?_text hw (hs _ hw), hbare]
      rfl
    | brackets =>
      refine (escapeLine_bareKey hs hbare (by simp [Begins]; decide)).trans ?_
      rw [LineEnd.escaped, hbare]
      rfl
    | braces =>
      refine (escapeLine_bareKey hs hbare (by simp [Begins]; decide)).trans ?_
      rw [LineEnd.escaped, hbare]
      rfl
    | formula e =>
      have hbegins : Begins (formulaSign :: e) := by
        simp [Begins]
        decide
      refine (escapeLine_bareKey hs hbare hbegins).trans ?_
      rw [LineEnd.escaped, hbare, treatment_of_formula]
      rfl
    | literal keeps lines =>
      refine (escapeLine_bareKey hs hbare (by simp [Begins]; decide)).trans ?_
      rw [LineEnd.escaped, hbare, treatment_block]
      rfl
    | word w =>
      obtain ⟨hbegins, htreat⟩ := treatment_of_escapable hl hbare
      refine (escapeLine_bareKey hs hbare hbegins).trans ?_
      rw [LineEnd.escaped, hbare]
      dsimp only
      rcases htreat with ht | ⟨t, ht⟩
      · rw [ht]; rfl
      · rw [ht]; rfl

/-! ## Rows and blocks -/

theorem spaces_takeWhile (n : Nat) {t : Text} (h : t.head? ≠ some ' ') :
    (Text.spaces n ++ t).takeWhile (· = ' ') = Text.spaces n := by
  rw [List.takeWhile_append_of_pos fun c hc => by simpa using List.eq_of_mem_replicate hc]
  cases t with
  | nil => simp
  | cons c t => simp [show c ≠ ' ' by simpa using h]

/-- A line begins with as many spaces as its margin says. -/
theorem takeWhile_text {h : Head} (hs : h.Sound) (t : Text) :
    (h.text ++ t).takeWhile (· = ' ') = Text.spaces h.margin := by
  obtain ⟨margin, dashes, key⟩ := h
  rw [Head.text, List.append_assoc]
  cases dashes with
  | zero =>
    rw [Head.lead_zero]
    refine spaces_takeWhile margin ?_
    cases key with
    | none => simp [Head.mark]
    | some w =>
      obtain ⟨c, r, hw, hc, -⟩ := Word.head_written (hs w rfl)
      simpa [Head.mark, hw] using hc
  | succ dashes =>
    rw [Head.lead_succ, List.append_assoc]
    exact spaces_takeWhile margin (by simp)

theorem not_isAllBlank_text (h : Head) (t : Text) : (h.text ++ t).isAllBlank = false := by
  have hmark : ∃ c ∈ h.mark, isBlank c = false := by
    rw [Head.mark]
    split
    · exact ⟨'-', by simp, by decide⟩
    · exact ⟨':', by simp, by decide⟩
  obtain ⟨c, hc, hb⟩ := hmark
  rw [Text.isAllBlank, List.all_eq_false]
  exact ⟨c, by simp [Head.text, hc], by simp [hb]⟩

/-- A line that begins no further to the right than a block is not in the block. -/
theorem not_inBlock {h : Head} (hs : h.Sound) {block : Option Nat}
    (hb : ∀ k ∈ block, h.margin ≤ k) (t : Text) : inBlock block (h.text ++ t) = false := by
  cases block with
  | none => rfl
  | some k =>
    have := hb k rfl
    rw [inBlock, not_isAllBlank_text, takeWhile_text hs]
    simpa [Text.spaces] using this

theorem inBlock_below (h : Head) (last : LineEnd) :
    ∀ l ∈ last.below (h.column + Layout.step), inBlock (last.block h) l = true := by
  intro l hl
  cases last with
  | literal keeps lines =>
    obtain ⟨x, -, rfl⟩ := List.mem_map.1 hl
    rw [LineEnd.block, inBlock]
    split
    · rfl
    · rw [List.takeWhile_append_of_pos fun c hc => by simpa using List.eq_of_mem_replicate hc]
      simp [Text.spaces, Layout.step]
      omega
  | _ => cases hl

/-- Rows become the escaped ones, if the first one is in no block that has been begun. -/
theorem escapeLines_rows {rs : List Row} (hn : rs.IsChain Outline.Nested)
    (h : ∀ r ∈ rs, r.head.Sound ∧ r.last.Escapable r.head) {block : Option Nat}
    (hb : ∀ r ∈ rs.head?, ∀ k ∈ block, r.head.margin ≤ k) :
    escapeLines block (rs.flatMap Row.lines ++ [[]])
      = .ok ((rs.map escaped).flatMap Row.lines ++ [[]]) := by
  induction rs generalizing block with
  | nil => cases block <;> rfl
  | cons r rs ih =>
    obtain ⟨hs, hl⟩ := h r List.mem_cons_self
    -- The row after this one is in no block that this one begins.
    have hnext : ∀ s ∈ rs.head?, ∀ k ∈ r.last.block r.head, s.head.margin ≤ k := by
      intro s hm k hk
      rcases (List.isChain_cons.1 hn).1 s hm with hr | hr
      · rw [hr] at hk; cases hk
      · cases hlast : r.last with
        | literal keeps lines =>
          rw [hlast] at hk
          obtain rfl : r.head.column = k := Option.some.inj hk
          exact hr
        | _ => rw [hlast] at hk; cases hk
    have hbelow := escapeLines_run (inBlock_below r.head r.last)
      (rs.flatMap Row.lines ++ [[]])
    rw [ih hn.tail (fun s hm => h s (List.mem_cons_of_mem _ hm)) hnext] at hbelow
    rw [List.flatMap_cons, List.append_assoc, Row.lines, List.cons_append, escapeLines,
      not_inBlock hs fun k hk => hb r rfl k hk]
    simp only [Bool.false_eq_true, if_false, escapeLine_row hs hl, bind, Except.bind, hbelow,
      Except.map]
    rw [List.map_cons, List.flatMap_cons, List.append_assoc]
    simp [escaped, Row.lines, LineEnd.below_escaped]

theorem oneLine_word {w : Word} (hw : w.Sound) : LineEnd.OneLine w.written :=
  ⟨fun hc => absurd (Word.not_break hw _ hc) (by decide),
    fun hc => absurd (Word.not_break hw _ hc) (by decide)⟩

theorem oneLine_append {a b : Text} (ha : LineEnd.OneLine a) (hb : LineEnd.OneLine b) :
    LineEnd.OneLine (a ++ b) := by
  simp [LineEnd.OneLine, ha.1, ha.2, hb.1, hb.2]

theorem oneLine_spaces (n : Nat) : LineEnd.OneLine (Text.spaces n) := by
  simp [LineEnd.OneLine, Text.spaces]

theorem oneLine_head {h : Head} (hs : h.Sound) : LineEnd.OneLine h.text := by
  have hdashes : ∀ c, c ≠ '-' → c ≠ ' ' → c ∉ (List.replicate h.dashes ['-', ' ']).flatten := by
    simp +contextual [List.mem_flatten, List.mem_replicate]
  refine oneLine_append (oneLine_append (oneLine_spaces _)
    ⟨hdashes _ (by decide) (by decide), hdashes _ (by decide) (by decide)⟩) ?_
  rw [Head.mark]
  cases hk : h.key with
  | none => exact ⟨by decide, by decide⟩
  | some w => exact oneLine_append (oneLine_word (hs w hk)) ⟨by decide, by decide⟩

theorem oneLine_lines {r : Row} (hs : r.head.Sound) (hl : r.last.Escapable r.head) :
    ∀ l ∈ r.lines, LineEnd.OneLine l := by
  have hfirst : LineEnd.OneLine r.last.first := by
    cases hlast : r.last with
    | word w =>
      rw [hlast] at hl
      have hw : LineEnd.OneLine w.written := by
        rcases hl with hl | ⟨-, hl, -⟩
        · exact oneLine_word hl
        · exact hl
      exact oneLine_append (a := [' ']) ⟨by decide, by decide⟩ hw
    | formula e =>
      rw [hlast] at hl
      exact oneLine_append (a := [' ', '=']) ⟨by decide, by decide⟩ hl.2
    | literal keeps lines => cases keeps <;> simp [LineEnd.OneLine, LineEnd.first, Scalar.blockSign]
    | _ => exact ⟨by decide, by decide⟩
  intro l hm
  rcases List.mem_cons.1 hm with rfl | hm
  · exact oneLine_append (oneLine_head hs) hfirst
  · cases hlast : r.last with
    | literal keeps lines =>
      rw [hlast] at hl hm
      obtain ⟨x, hx, rfl⟩ := List.mem_map.1 hm
      split
      · exact ⟨by decide, by decide⟩
      · exact oneLine_append (oneLine_spaces _) (hl.2 x hx)
    | _ => rw [hlast] at hm; cases hm

end Row

namespace Outline

theorem oneLine_textRows {o : Outline}
    (h : ∀ r ∈ o.textRows, r.head.Sound ∧ r.last.Escapable r.head) :
    ∀ l ∈ o.textRows.flatMap Row.lines, LineEnd.OneLine l := fun l hl => by
  obtain ⟨r, hr, hm⟩ := List.mem_flatMap.1 hl
  exact Row.oneLine_lines (h r hr).1 (h r hr).2 l hm

/-- The breaks in a text of an outline are line feeds. -/
theorem not_return_write {o : Outline} (hroot : ∀ last, o ≠ leaf last) (hf : o.Filled)
    (h : ∀ r ∈ o.textRows, r.head.Sound ∧ r.last.Escapable r.head) :
    '\r' ∉ o.write .start 0 := by
  rw [write_textRows hroot hf, closedLines, List.mem_flatMap]
  rintro ⟨l, hl, hc⟩
  rcases List.mem_append.1 hc with hc | hc
  · exact (oneLine_textRows h l hl).2 hc
  · exact absurd hc (by decide)

/-- The escaped text of an outline is the text of the escaped outline. -/
theorem escape_write {o : Outline} (hroot : ∀ last, o ≠ leaf last) (hf : o.Filled)
    (h : ∀ r ∈ o.textRows, r.head.Sound ∧ r.last.Escapable r.head) :
    escape (o.write .start 0) = .ok ((o.textRelabel LineEnd.escaped).write .start 0) := by
  have hrows : (o.textRelabel LineEnd.escaped).textRows = o.textRows.map Row.escaped :=
    textRows_relabel LineEnd.escaped_nothing o
  rw [escape, Text.unifyBreaks_eq (not_return_write hroot hf h), write_textRows hroot hf,
    write_textRows (textRelabel_ne_leaf _ hroot) (filled_textRelabel _ hf), hrows,
    Text.lines_closedLines fun l hl => (oneLine_textRows h l hl).1,
    Row.escapeLines_rows (nested_textRows hf) h (by simp)]
  exact congrArg Except.ok (Text.ofLines_closed _)

end Outline

end Yaml

end ModernControls
