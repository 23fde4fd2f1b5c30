import ModernControls.Formula.Escape
import ModernControls.Proofs.Formula.Heads
import ModernControls.Proofs.Yaml.OutlineTrees

/-!
# Formulas in written text

When formulas are put back into a written text, each row keeps its head and gets another end: behind
a key that is found again, a word between double quotation marks is what it says, a formula or a
type with a version. All other ends stay.

Results:
- `decode_word`: a word between quotation marks is decoded as its text;
- `unescapeLine_row`: putting formulas back into a row gives the restored row;
- `unescape_write`: so it does in a whole text.
-/
namespace ModernControls

open Yaml Layout

namespace Formula

/-- A word between quotation marks is decoded as its text. -/
theorem decode_word {w : Word} (h : w.Sound) (hs : w.style ≠ .plain) :
    decode w.written = .ok (some w.value) := by
  obtain ⟨form, hf⟩ := Outline.ofText_word (α := Empty) .full h hs
  rw [decode, hf]

theorem quotedLength?_itself {t : Text} (h : ∀ c ∈ t, c ≠ '"' ∧ c ≠ '\\') (r : Text) :
    quotedLength? (t ++ r) = (quotedLength? r).map (· + t.length) := by
  induction t with
  | nil => simp
  | cons c t ih =>
    obtain ⟨h1, h2⟩ := h c List.mem_cons_self
    have : quotedLength? (c :: (t ++ r)) = (quotedLength? (t ++ r)).map (· + 1) := by
      rw [quotedLength?]
      · exact fun e => absurd e h1
      · exact fun _ _ e => absurd e h2
      · exact fun e _ => absurd e h2
    rw [List.cons_append, this, ih fun d hd => h d (List.mem_cons_of_mem _ hd), Option.map_map]
    rfl

theorem ne_of_isHexDigit {d : Char} (h : Scalar.isHexDigit d = true) : d ≠ '"' ∧ d ≠ '\\' := by
  refine ⟨?_, ?_⟩
  · rintro rfl
    exact absurd h (by decide)
  · rintro rfl
    exact absurd h (by decide)

/-- A piece is passed over as a whole. -/
theorem quotedLength?_piece {p : Text} {c : Char} (h : Piece p c) (r : Text) :
    quotedLength? (p ++ r) = (quotedLength? r).map (· + p.length) := by
  cases h with
  | itself quote slash => exact quotedLength?_itself (by simpa using ⟨quote, slash⟩) r
  | letter => rfl
  | @code l c digits _ _ hex =>
    have hd := quotedLength?_itself (fun d hd => ne_of_isHexDigit (hex d hd)) r
    show (quotedLength? (digits ++ r)).map (· + 2) = _
    rw [hd, Option.map_map]
    rfl

/-- A text between double quotation marks ends where it is closed. -/
theorem quotedLength?_pieces {ps : List (Text × Char)} (h : ∀ p ∈ ps, Piece p.1 p.2) (r : Text) :
    quotedLength? (ps.flatMap (·.1) ++ '"' :: r) = some (ps.flatMap (·.1)).length := by
  induction ps with
  | nil => rfl
  | cons p ps ih =>
    rw [List.flatMap_cons, List.append_assoc, quotedLength?_piece (h p List.mem_cons_self),
      ih fun q hq => h q (List.mem_cons_of_mem _ hq), List.length_append, Nat.add_comm]
    rfl

theorem quotedValue?_double {ps : List (Text × Char)} (h : ∀ p ∈ ps, Piece p.1 p.2) :
    quotedValue? (Word.double ps).written = some (Word.double ps).written := by
  have hl := quotedLength?_pieces h []
  have hlen : (ps.flatMap (·.1) ++ ['"']).length ≤ (ps.flatMap (·.1)).length + 1 := by simp
  have hw : (Word.double ps).written = '"' :: (ps.flatMap (·.1) ++ ['"']) := rfl
  rw [hw, quotedValue?, hl]
  dsimp only
  rw [List.drop_of_length_le hlen, List.take_of_length_le hlen]
  rfl

theorem quotedValue?_of_head {t : Text} (h : t.head? ≠ some '"') : quotedValue? t = none := by
  rw [quotedValue?.eq_def]
  split
  · simp at h
  · rfl

end Formula

namespace Yaml

open Formula

namespace LineEnd

/-- A formula on its line, or as a block below it if it has several. -/
def ofFormula (expression : Text) : LineEnd :=
  if expression.contains '\n' then
    let text : Text := formulaSign :: expression
    if text.getLast? = some '\n' then literal true text.lines.dropLast else literal false text.lines
  else formula expression

/-- What becomes of a word between double quotation marks behind a key that is found again. -/
def restoredWord (key : Text) (w : Word) : LineEnd :=
  match w.value with
  | c :: rest =>
    if c = formulaMark then
      if rest.head? = some formulaMark then word (.ofJson rest) else ofFormula rest
    else if key = typeKey ∧ isVersionedType (withoutFeed (c :: rest)) then word (.plain (c :: rest))
    else word w
  | [] => word w

/-- What becomes of a line end when formulas are put back. -/
def restored (h : Head) (last : LineEnd) : LineEnd :=
  match last with
  | word (.double ps) =>
    match h.bareKey? with
    | some key => restoredWord key (.double ps)
    | none => word (.double ps)
  | last => last

/-- Behind no key that is found again, everything stays. -/
theorem restored_of_none {h : Head} (hk : h.bareKey? = none) (last : LineEnd) :
    restored h last = last := by
  rw [restored.eq_def, hk]
  split <;> rfl

/-- What is no word between double quotation marks stays. -/
theorem restored_of_ne {last : LineEnd} (hl : ∀ ps, last ≠ word (.double ps)) (h : Head) :
    restored h last = last := by
  rw [restored.eq_def]
  split
  · next ps => exact absurd rfl (hl ps)
  · rfl

theorem restored_of_some {h : Head} {key : Text} (hk : h.bareKey? = some key)
    (ps : List (Text × Char)) :
    restored h (word (.double ps)) = restoredWord key (.double ps) := by
  rw [restored, hk]

/-- What a layout writes at the end of a line, if it is read as it is meant. -/
def Laid : LineEnd → Prop
  | word w => w.Sound
  | formula _ => False
  | literal .. => False
  | _ => True

end LineEnd

namespace Row

/-- A row after formulas have been put back. -/
def restored (r : Row) : Row := ⟨r.head, r.last.restored r.head⟩

theorem lines_word (h : Head) (w : Word) :
    (⟨h, .word w⟩ : Row).lines = [h.text ++ ' ' :: w.written] := rfl

/-- The lines of a formula of several lines. -/
theorem blockLines_eq {h : Head} {key rest : Text}
    (hline : ∀ t, h.lead ++ key ++ ':' :: t = h.text ++ t) :
    blockLines h.lead (h.lead ++ key) (formulaSign :: rest)
      = (⟨h, if (formulaSign :: rest).getLast? = some '\n'
          then .literal true (Text.lines (formulaSign :: rest)).dropLast
          else .literal false (Text.lines (formulaSign :: rest))⟩ : Row).lines := by
  have hpad : h.lead.length + 2 = h.column + Layout.step := by rw [Head.length_lead]; rfl
  by_cases hlast : (formulaSign :: rest).getLast? = some '\n'
  · simp only [blockLines, hlast, if_true, hpad, hline]
    rfl
  · simp only [blockLines, hlast, if_false, hpad, hline]
    rfl

/-- The lines for a key line are those of the row with its new end. -/
theorem restoredLines_eq {h : Head} {w : Word} {key : Text} (hk : h.lead ++ key ++ [':'] = h.text) :
    restoredLines h.lead key (h.text ++ ' ' :: w.written) w.value
      = (⟨h, LineEnd.restoredWord key w⟩ : Row).lines := by
  have hline : ∀ t, h.lead ++ key ++ ':' :: t = h.text ++ t := fun t => by
    rw [← hk]
    simp
  rw [restoredLines.eq_def, LineEnd.restoredWord]
  cases w.value with
  | nil => rfl
  | cons c rest =>
    dsimp only
    split
    · split
      · rw [quotedLine, hline, lines_word, Word.written_ofJson]
      · rw [LineEnd.ofFormula]
        split
        · exact blockLines_eq hline
        · rw [hline]
          rfl
    · split
      · rw [hline]
        rfl
      · rfl

theorem text_of_bareKey? {h : Head} {key : Text} (hk : h.bareKey? = some key) :
    h.lead ++ key ++ [':'] = h.text ∧ h.key = some (.plain key) := by
  rw [Head.bareKey?] at hk
  split at hk
  · next c t heq =>
    split at hk
    · obtain rfl := Option.some.inj hk
      refine ⟨?_, heq⟩
      simp [Head.text, Head.mark, heq, Word.written]
    · cases hk
  · cases hk

theorem below_of_laid {last : LineEnd} (hl : last.Laid) (indent : Nat) : last.below indent = [] := by
  cases last with
  | literal keeps lines => exact hl.elim
  | _ => rfl

/-- How a line behind a key that is found again is split. -/
theorem parse?_bareKey {h : Head} {key : Text} (hs : h.Sound) (hk : h.bareKey? = some key)
    {value : Text} (hb : Begins value) :
    KeyLine.parse? (h.text ++ ' ' :: value) = some ⟨h.lead, key, some ([' '], value)⟩ := by
  have hw := (text_of_bareKey? hk).2
  rw [Head.parse?_text hw (hs _ hw), hk, KeyLine.valueOf?_space hb]
  rfl

/-- A value that does not begin with a double quotation mark stays. -/
theorem unescapeLine_kept {h : Head} {key : Text} (hs : h.Sound) (hk : h.bareKey? = some key)
    {value : Text} (hb : Begins value) (hq : value.head? ≠ some '"') :
    unescapeLine (h.text ++ ' ' :: value) = .ok [h.text ++ ' ' :: value] := by
  rw [unescapeLine, parse?_bareKey hs hk hb]
  dsimp only
  rw [quotedValue?_of_head hq]

/-- A word between double quotation marks is what it says. -/
theorem unescapeLine_double {h : Head} {key : Text} (hs : h.Sound) (hk : h.bareKey? = some key)
    {ps : List (Text × Char)} (hw : (Word.double ps).Sound) :
    unescapeLine (h.text ++ ' ' :: (Word.double ps).written)
      = .ok (⟨h, LineEnd.restoredWord key (.double ps)⟩ : Row).lines := by
  rw [unescapeLine, parse?_bareKey hs hk (by simpa using Head.begins_word hw [])]
  dsimp only
  rw [quotedValue?_double fun p hp => (hw p hp).1]
  dsimp only
  rw [decode_word hw (by simp [Word.style]), ← restoredLines_eq (text_of_bareKey? hk).1]
  rfl

/-- A written row becomes the restored one. -/
theorem unescapeLine_row {r : Row} (hs : r.head.Sound) (hl : r.last.Laid) :
    unescapeLine (r.head.text ++ r.last.first) = .ok r.restored.lines := by
  obtain ⟨h, last⟩ := r
  have hsame : (⟨h, last⟩ : Row).lines = [h.text ++ last.first] := by
    rw [Row.lines, below_of_laid hl]
  dsimp only at hs hl ⊢
  rw [restored]
  dsimp only
  cases hbare : h.bareKey? with
  | none =>
    have hparse : KeyLine.parse? (h.text ++ last.first) = none := by
      cases hk : h.key with
      | none =>
        exact Head.parse?_item hk (fun w hw => by subst hw; exact hl)
          (fun e he => by subst he; exact hl) fun keeps lines hb => by subst hb; exact hl
      | some w => rw [Head.parse?_text hk (hs w hk), hbare]
    rw [unescapeLine, hparse, LineEnd.restored_of_none hbare, hsame]
  | some key =>
    have hw := (text_of_bareKey? hbare).2
    cases last with
    | formula e => exact hl.elim
    | literal keeps lines => exact hl.elim
    | nothing =>
      rw [LineEnd.restored_of_ne (by simp), hsame, unescapeLine, Head.parse?_text hw (hs _ hw), hbare]
      rfl
    | brackets =>
      rw [LineEnd.restored_of_ne (by simp), hsame]
      exact unescapeLine_kept hs hbare (by simp [Begins]; decide) (by decide)
    | braces =>
      rw [LineEnd.restored_of_ne (by simp), hsame]
      exact unescapeLine_kept hs hbare (by simp [Begins]; decide) (by decide)
    | word w =>
      have hbegins : Begins w.written := by simpa using Head.begins_word hl []
      cases w with
      | double ps =>
        rw [LineEnd.restored_of_some hbare]
        exact unescapeLine_double hs hbare hl
      | single t =>
        rw [LineEnd.restored_of_ne (by simp), hsame]
        exact unescapeLine_kept hs hbare hbegins (by simp [Word.written])
      | plain t =>
        rw [LineEnd.restored_of_ne (by simp), hsame]
        refine unescapeLine_kept hs hbare hbegins ?_
        obtain ⟨c, r, rfl, -, hf, -⟩ := of_isPlainText hl
        intro hc
        obtain rfl : c = '"' := by simpa [Word.written] using hc
        simp [firstIndicators] at hf

/-- Written rows become the restored ones. -/
theorem unescapeLines_rows {rs : List Row} (h : ∀ r ∈ rs, r.head.Sound ∧ r.last.Laid) :
    unescapeLines (rs.flatMap Row.lines ++ [[]])
      = .ok ((rs.map restored).flatMap Row.lines ++ [[]]) := by
  induction rs with
  | nil => rfl
  | cons r rs ih =>
    obtain ⟨hs, hl⟩ := h r List.mem_cons_self
    have hlines : r.lines = [r.head.text ++ r.last.first] := by rw [Row.lines, below_of_laid hl]
    rw [List.flatMap_cons, hlines, List.append_assoc, List.singleton_append, unescapeLines,
      unescapeLine_row hs hl, ih fun r hr => h r (List.mem_cons_of_mem _ hr)]
    simp [bind, Except.bind]

/-- A row on one line has no line feed in it. -/
theorem lines_of_laid {r : Row} (hs : r.head.Sound) (hl : r.last.Laid) :
    ∀ l ∈ r.lines, '\n' ∉ l := by
  intro l hm
  rw [Row.lines, below_of_laid hl, List.mem_singleton] at hm
  subst hm
  have hword : ∀ w : Word, w.Sound → '\n' ∉ w.written := fun w hw hc =>
    absurd (Word.not_break hw _ hc) (by decide)
  have hfirst : '\n' ∉ r.last.first := by
    cases hlast : r.last with
    | word w =>
      rw [hlast] at hl
      simpa [LineEnd.first] using hword w hl
    | formula e => rw [hlast] at hl; exact hl.elim
    | literal keeps lines => rw [hlast] at hl; exact hl.elim
    | _ => decide
  rw [List.mem_append, not_or]
  exact ⟨Head.no_feed hs, hfirst⟩

end Row

namespace Outline

/-- The text of an outline with formulas put back is the text of the restored outline. -/
theorem unescape_write {o : Outline} (hroot : ∀ last, o ≠ leaf last) (hf : o.Filled)
    (h : ∀ r ∈ o.textRows, r.head.Sound ∧ r.last.Laid) :
    unescape (o.write .start 0) = .ok ((o.textRelabel LineEnd.restored).write .start 0) := by
  have hfeed : ∀ l ∈ o.textRows.flatMap Row.lines, '\n' ∉ l := fun l hl => by
    obtain ⟨r, hr, hm⟩ := List.mem_flatMap.1 hl
    exact Row.lines_of_laid (h r hr).1 (h r hr).2 l hm
  have hrows : (o.textRelabel LineEnd.restored).textRows = o.textRows.map Row.restored :=
    textRows_relabel (fun h => LineEnd.restored_of_ne (by simp) h) o
  rw [write_textRows hroot hf,
    write_textRows (textRelabel_ne_leaf _ hroot) (filled_textRelabel _ hf), hrows, unescape,
    Text.lines_closedLines hfeed, Row.unescapeLines_rows h]
  exact congrArg Except.ok (Text.ofLines_closed _)

end Outline

end Yaml

end ModernControls
