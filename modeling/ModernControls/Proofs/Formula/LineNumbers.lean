import ModernControls.Control.Reading
import ModernControls.Proofs.Formula.Reversed
import ModernControls.Proofs.Json.Quoted
import ModernControls.Proofs.Yaml.Cursor

/-!
# The lines of an escaped text

Escaping makes one line of every line. The lines of a block are copied. Any other line is kept, or
its value is replaced by a quoted scalar; what stands before the colon stays as it is.

What a reader reports of an escaped text is at a line that the reader counts, and it should be the
line of the text that was escaped. A YAML reader also ends a line at U+0085, U+2028 and U+2029, and
the JSON writer, which quotes the scalars, leaves these three as they are. So a quoted text with an
escape for one of them becomes a scalar with a line break in it, and every line after it is counted
one too high.

**Blocks (`Walk`).** Escaping goes from line to line with the indentation of the block that it is
in, if any; each line says what comes after it.

Results:
- `looked_of_escapeLine`: what one line becomes;
- `walk_of_escapeLines`: what lines become one after the other;
- `lineNumber_ofLines`: how a reader counts lines;
- `lines_of_escape`: an escaped text has the lines of the text, and a reader counts them alike
  exactly if every text that is quoted has the breaks of its value.
-/
namespace ModernControls

open Yaml

theorem Text.not_mem_unifyBreaks (text : Text) : '\r' ∉ text.unifyBreaks := by
  fun_induction unifyBreaks text with
  | case1 rest ih => simpa using ih
  | case2 rest _ ih => simpa using ih
  | case3 c rest _ hc ih =>
    rw [List.mem_cons, not_or]
    exact ⟨fun h => hc h.symm, ih⟩
  | case4 => simp

/-- A text begins with any of its first lines. -/
theorem Text.exists_ofLines_append {ls : List Text} (h : ls ≠ []) (ms : List Text) :
    ∃ r, ofLines (ls ++ ms) = ofLines ls ++ r := by
  by_cases hm : ms = []
  · exact ⟨[], by rw [hm, List.append_nil, List.append_nil]⟩
  · exact ⟨_, ofLines_above h hm⟩

namespace Formula

open LineEnd (OneLine)

/-- Whether a character is a line break of YAML other than a line feed and a carriage return. -/
def isRareBreak (c : Char) : Bool := c = '\x85' || c = '\u2028' || c = '\u2029'

/-- How many of these a text has. -/
def rareBreaks (text : Text) : Nat := text.countP isRareBreak

/-- A scalar on one line between double quotation marks that stands for a text. A JSON reader finds
the text in it, and so does a YAML reader if all characters of the text are safe. -/
structure IsScalarOf (text quoted : Text) : Prop where
  one : OneLine quoted
  json : ∃ rest, quoted = '"' :: rest ∧ Json.readText rest = .ok (text, [])
  yaml : (∀ c ∈ text, isSafe c = true) → decode quoted = .ok (some text)

/-- The text that is quoted for a value: a formula behind the mark in place of its sign, a quoted
text that begins with the mark behind another one, and any other value without blanks at its end. -/
inductive IsQuotedFor (value : Text) : Text → Prop
  | formula {expression : Text} : value = formulaSign :: expression →
    IsQuotedFor value (formulaMark :: expression)
  | marked {text : Text} : value.head? = some '"' →
    decode value.trimEnd = .ok (some (formulaMark :: text)) →
    IsQuotedFor value (formulaMark :: formulaMark :: text)
  | plain : value.head? ≠ some formulaSign → value.head? ≠ some '"' →
    IsQuotedFor value value.trimEnd

/-- What a line outside of blocks becomes: it is kept, or its value is quoted. -/
inductive Becomes (line : Text) : Text → Prop
  | kept : Becomes line line
  | quoted {indent key blanks value text scalar : Text} :
    line = indent ++ key ++ ':' :: (blanks ++ value) →
    KeyLine.parse? line = some ⟨indent, key, some (blanks, value)⟩ →
    KeyLine.parse? (indent ++ key ++ ':' :: ' ' :: scalar)
      = some ⟨indent, key, some ([' '], scalar)⟩ →
    IsQuotedFor value text → IsScalarOf text scalar →
    Becomes line (indent ++ key ++ ':' :: ' ' :: scalar)

/-- What lines become one after the other, from inside a block or outside of all. -/
inductive Walk : Option Nat → List Text → List Text → Prop
  | done {block : Option Nat} : Walk block [] []
  | copied {block : Option Nat} {line : Text} {rest outs : List Text} :
    inBlock block line = true → Walk block rest outs → Walk block (line :: rest) (line :: outs)
  | looked {block : Option Nat} {line out : Text} {rest outs : List Text} :
    inBlock block line = false → Becomes line out → Walk (blockOf line) rest outs →
    Walk block (line :: rest) (out :: outs)

/-- Whether the text that is quoted for the value of a line has as many rare breaks as the value. -/
def KeepsBreaks (line : Text) : Prop :=
  OnValue (fun key _ value => ∀ text, treatment key.trim value = .ok (.quote text) →
    rareBreaks text = rareBreaks value) line

/-- The line that a YAML reader counts at the end of a line of a text. -/
def lineNumber (text : Text) (i : Nat) : Nat :=
  ((Cursor.start text).advance (Text.ofLines (text.lines.take (i + 1))).length).line

variable {line out key indent blanks value t : Text} {block : Option Nat} {lines outs : List Text}

/-! ## Quoted scalars -/

theorem isBreak_eq (c : Char) : isBreak c = (c = '\n' || c = '\r' || isRareBreak c) := by
  simp [isBreak, isRareBreak, Bool.or_assoc]

theorem isRareBreak_eq_false {c : Char} (h : isBreak c = false) : isRareBreak c = false := by
  rw [isBreak_eq, Bool.or_eq_false_iff] at h
  exact h.2

/-- A character is quoted without line feeds and carriage returns, and with its rare break. -/
theorem quotedChar_breaks (c : Char) :
    OneLine (Json.quotedChar false c)
      ∧ rareBreaks (Json.quotedChar false c) = rareBreaks [c] := by
  cases hs : isSafe c with
  | false =>
    obtain ⟨hitself, hne⟩ := quotedChar_of_not_isSafe hs
    rw [hitself, OneLine, List.mem_singleton, List.mem_singleton]
    exact ⟨⟨(hne _ (by decide)).symm, (hne _ (by decide)).symm⟩, rfl⟩
  | true =>
    have hnone : ∀ d ∈ Json.quotedChar false c, isBreak d = false :=
      (readablePiece_quotedChar hs).1.not_break
    have hrare : isRareBreak c = false := by
      refine Bool.eq_false_iff.2 fun h => ?_
      simp only [isRareBreak, Bool.or_eq_true, decide_eq_true_eq] at h
      rcases h with (rfl | rfl) | rfl <;> exact absurd hs (by decide)
    refine ⟨⟨fun h => absurd (hnone _ h) (by decide), fun h => absurd (hnone _ h) (by decide)⟩, ?_⟩
    have hcount : rareBreaks (Json.quotedChar false c) = 0 :=
      List.countP_eq_zero.2 fun d hd => by simp [isRareBreak_eq_false (hnone d hd)]
    rw [hcount, rareBreaks, List.countP_singleton, hrare]
    rfl

theorem rareBreaks_append (a b : Text) : rareBreaks (a ++ b) = rareBreaks a + rareBreaks b :=
  List.countP_append

theorem flatMap_breaks (t : Text) :
    OneLine (t.flatMap (Json.quotedChar false))
      ∧ rareBreaks (t.flatMap (Json.quotedChar false)) = rareBreaks t := by
  induction t with
  | nil => simp [OneLine]
  | cons c t ih =>
    obtain ⟨⟨hfeed, hreturn⟩, hcount⟩ := quotedChar_breaks c
    rw [List.flatMap_cons, OneLine, List.mem_append, List.mem_append, not_or, not_or,
      rareBreaks_append, hcount, ih.2, ← rareBreaks_append]
    exact ⟨⟨⟨hfeed, ih.1.1⟩, hreturn, ih.1.2⟩, rfl⟩

theorem rareBreaks_quote (t : Text) : rareBreaks (Json.quote false t) = rareBreaks t := by
  have hmark : rareBreaks ['"'] = 0 := by decide
  rw [Json.quote, ← List.singleton_append, List.append_assoc, rareBreaks_append,
    rareBreaks_append, hmark, (flatMap_breaks t).2]
  omega

theorem oneLine_quote (t : Text) : OneLine (Json.quote false t) := by
  obtain ⟨hfeed, hreturn⟩ := (flatMap_breaks t).1
  simp only [OneLine, Json.quote, List.cons_append, List.mem_cons, List.mem_append,
    List.not_mem_nil, or_false, not_or]
  exact ⟨⟨by decide, hfeed, by decide⟩, by decide, hreturn, by decide⟩

theorem isScalarOf_quote (t : Text) : IsScalarOf t (Json.quote false t) := by
  obtain ⟨rest, hq, hread⟩ := Json.readText_quote false t []
  exact ⟨oneLine_quote t, ⟨rest, by simpa using hq, hread⟩, decode_quote⟩

/-! ## What lines become -/

/-- What can become of a value: it is kept, a text is quoted for it, or it is the header of a
block. -/
inductive IsTreated (value : Text) : Treatment → Prop
  | keep : IsTreated value .keep
  | quote {text : Text} : IsQuotedFor value text → IsTreated value (.quote text)
  | block : isBlockHeader value.trimEnd = true → IsTreated value .block

theorem isTreated_of_quoted {treated : Treatment} (hhead : value.head? = some '"')
    (h : treatmentOfQuoted value.trimEnd = .ok treated) : IsTreated value treated := by
  obtain ⟨text?, hd, h⟩ := exists_of_bind h
  cases text? with
  | none => cases h; exact .keep
  | some text =>
    obtain rfl : _ = treated := Except.ok.inj h
    split
    · next hmark =>
      obtain ⟨more, rfl⟩ := List.head?_eq_some_iff.mp hmark
      exact .quote (.marked hhead hd)
    · exact .keep

theorem isTreated_of_treatment {treated : Treatment} (h : treatment key value = .ok treated) :
    IsTreated value treated := by
  by_cases hsign : value.head? = some formulaSign
  · obtain ⟨expression, rfl⟩ := List.head?_eq_some_iff.mp hsign
    rw [treatment_of_formula] at h
    cases h
    exact .quote (.formula rfl)
  rw [treatment_of_trimEnd hsign] at h
  cases htrim : value.trimEnd with
  | nil =>
    rw [htrim] at h
    cases h
    exact .keep
  | cons c rest =>
    have hhead : value.head? = some c := by
      rw [← Text.head_trimEnd (by simp [htrim]), htrim]
      rfl
    rw [htrim, treatmentOfPlain] at h
    by_cases hquote : c = '"'
    · rw [if_pos hquote, ← htrim] at h
      exact isTreated_of_quoted (hquote ▸ hhead) h
    rw [if_neg hquote] at h
    by_cases hcomment : c = '#'
    · rw [if_pos hcomment] at h
      cases h
      exact .keep
    rw [if_neg hcomment] at h
    by_cases hheader : isBlockHeader (c :: rest) = true
    · rw [if_pos hheader] at h
      cases h
      exact .block (htrim ▸ hheader)
    rw [if_neg hheader] at h
    obtain rfl : _ = treated := Except.ok.inj h
    split
    · exact .quote (htrim ▸ .plain hsign (by simpa [hhead] using hquote))
    · exact .keep

theorem blockOf_of_treatment {treated : Treatment}
    (hk : KeyLine.parse? line = some ⟨indent, key, some (blanks, value)⟩)
    (ht : treatment key.trim value = .ok treated) :
    blockOf line = if treated = .block then some indent.length else none := by
  rw [blockOf_eq hk]
  by_cases hheader : isBlockHeader value.trimEnd = true
  · obtain rfl : Treatment.block = treated :=
      Except.ok.inj ((treatment_of_isBlockHeader hheader).symm.trans ht)
    rw [if_pos hheader, if_pos rfl]
  · rw [if_neg hheader, if_neg]
    rintro rfl
    cases isTreated_of_treatment ht with
    | block h => exact hheader h

theorem rareBreaks_eq_zero_of_blank (h : ∀ c ∈ blanks, isSpaceOrTab c = true) :
    rareBreaks blanks = 0 := by
  refine List.countP_eq_zero.2 fun c hc => ?_
  have hblank := h c hc
  simp only [isSpaceOrTab, Bool.or_eq_true, decide_eq_true_eq] at hblank
  rcases hblank with rfl | rfl <;> decide

theorem rareBreaks_keyLine (head : Text) {gap : Text} (hb : ∀ c ∈ gap, isSpaceOrTab c = true)
    (rest : Text) :
    rareBreaks (head ++ ':' :: (gap ++ rest)) = rareBreaks head + rareBreaks rest := by
  have hcolon : rareBreaks (':' :: (gap ++ rest)) = rareBreaks (gap ++ rest) :=
    List.countP_cons_of_neg (by decide)
  rw [rareBreaks_append, hcolon, rareBreaks_append gap, rareBreaks_eq_zero_of_blank hb,
    Nat.zero_add]

theorem keepsBreaks_iff (hk : KeyLine.parse? line = some ⟨indent, key, some (blanks, value)⟩)
    (ht : treatment key.trim value = .ok (.quote t)) :
    KeepsBreaks line ↔ rareBreaks t = rareBreaks value := by
  rw [KeepsBreaks, onValue_iff hk]
  refine ⟨fun h => h t ht, fun h text htext => ?_⟩
  obtain rfl : t = text := by simpa using ht.symm.trans htext
  exact h

/-- A line that is looked at, the state after it, and when its breaks stay. -/
structure Looked (line out : Text) (next : Option Nat) : Prop where
  becomes : Becomes line out
  next : next = blockOf line
  breaks : rareBreaks out = rareBreaks line ↔ KeepsBreaks line

theorem looked_quoted (hk : KeyLine.parse? line = some ⟨indent, key, some (blanks, value)⟩)
    (ht : treatment key.trim value = .ok (.quote t)) :
    Looked line (quotedLine (indent ++ key) t) none := by
  have hline : indent ++ key ++ ':' :: (blanks ++ value) = line := KeyLine.text_of_parse? hk
  cases isTreated_of_treatment ht with
  | quote hq =>
    refine ⟨.quoted hline.symm hk (parse?_again hk (begins_quote t)) hq (isScalarOf_quote t),
      by rw [blockOf_of_treatment hk ht, if_neg nofun], ?_⟩
    have hout : rareBreaks (quotedLine (indent ++ key) t)
        = rareBreaks (indent ++ key) + rareBreaks t := by
      have hspace : ∀ c ∈ [' '], isSpaceOrTab c = true := by decide
      rw [← rareBreaks_quote t]
      exact rareBreaks_keyLine (indent ++ key) hspace _
    have hin : rareBreaks line = rareBreaks (indent ++ key) + rareBreaks value := by
      rw [← hline]
      exact rareBreaks_keyLine _ (blanks_of_parse? hk).2.1 value
    rw [hout, hin, Nat.add_left_cancel_iff, keepsBreaks_iff hk ht]

theorem looked_kept {next : Option Nat} (hnext : next = blockOf line)
    (hnone : OnValue (fun key _ value => ∀ t, treatment key.trim value ≠ .ok (.quote t)) line) :
    Looked line line next :=
  ⟨.kept, hnext, iff_of_true rfl fun indent key blanks value hk t ht =>
    absurd ht (hnone indent key blanks value hk t)⟩

theorem looked_of_escapeLine {next : Option Nat} (h : escapeLine line = .ok (out, next)) :
    Looked line out next := by
  rcases hk : KeyLine.parse? line with _ | ⟨indent, key, _ | ⟨blanks, value⟩⟩
  · have hline : escapeLine line = .ok (line, none) := by rw [escapeLine, hk]
    rw [hline] at h
    obtain ⟨rfl, rfl⟩ : line = out ∧ none = next := by simpa using h
    exact looked_kept (by rw [blockOf, hk]) fun _ _ _ _ h => absurd (hk.symm.trans h) (by simp)
  · have hline : escapeLine line = .ok (line, none) := by rw [escapeLine, hk]
    rw [hline] at h
    obtain ⟨rfl, rfl⟩ : line = out ∧ none = next := by simpa using h
    exact looked_kept (by rw [blockOf, hk]) fun _ _ _ _ h => absurd (hk.symm.trans h) (by simp)
  · cases ht : treatment key.trim value with
    | error e =>
      rw [escapeLine, hk] at h
      dsimp only at h
      rw [ht] at h
      cases h
    | ok treated =>
      cases treated with
      | keep =>
        rw [escapeLine_keep hk ht] at h
        obtain ⟨rfl, rfl⟩ : line = out ∧ none = next := by simpa using h
        refine looked_kept (by rw [blockOf_of_treatment hk ht, if_neg (by simp)]) ?_
        rw [onValue_iff hk, ht]
        simp
      | quote t =>
        rw [escapeLine_quote hk ht] at h
        obtain ⟨rfl, rfl⟩ : quotedLine (indent ++ key) t = out ∧ none = next := by simpa using h
        exact looked_quoted hk ht
      | block =>
        rw [escapeLine_block hk ht] at h
        obtain ⟨rfl, rfl⟩ : line = out ∧ some indent.length = next := by simpa using h
        refine looked_kept (by rw [blockOf_of_treatment hk ht, if_pos rfl]) ?_
        rw [onValue_iff hk, ht]
        simp

theorem Becomes.oneLine (h : Becomes line out) (hline : OneLine line) : OneLine out := by
  cases h with
  | kept => exact hline
  | quoted heq _ _ _ hscalar =>
    obtain ⟨hfeed, hreturn⟩ := hscalar.one
    subst heq
    simp only [OneLine, List.mem_append, List.mem_cons, not_or] at hline ⊢
    exact ⟨⟨hline.1.1, hline.1.2.1, by decide, hfeed⟩, hline.2.1, hline.2.2.1, by decide, hreturn⟩

/-! ## Runs of lines -/

/-- What one line of a run becomes, and the state in which the lines after it are looked at. -/
theorem exists_of_escapeLines {rest : List Text}
    (h : escapeLines block (line :: rest) = .ok outs) :
    ∃ out more, outs = out :: more
      ∧ (inBlock block line = true ∧ out = line ∧ escapeLines block rest = .ok more
        ∨ inBlock block line = false ∧ Looked line out (blockOf line)
          ∧ escapeLines (blockOf line) rest = .ok more) := by
  rw [escapeLines] at h
  split at h
  · next hb =>
    obtain ⟨more, hmore, h⟩ := exists_of_bind h
    cases h
    exact ⟨line, more, rfl, .inl ⟨hb, rfl, hmore⟩⟩
  · next hb =>
    obtain ⟨⟨out, next⟩, hline, h⟩ := exists_of_bind h
    obtain ⟨more, hmore, h⟩ := exists_of_bind h
    cases h
    have hlooked := looked_of_escapeLine hline
    obtain rfl := hlooked.next
    exact ⟨out, more, rfl, .inr ⟨by simpa using hb, hlooked, hmore⟩⟩

theorem walk_of_escapeLines (h : escapeLines block lines = .ok outs) : Walk block lines outs := by
  induction lines generalizing block outs with
  | nil => cases h; exact .done
  | cons line rest ih =>
    obtain ⟨out, more, rfl, ⟨hb, rfl, hmore⟩ | ⟨hb, hlooked, hmore⟩⟩ := exists_of_escapeLines h
    · exact .copied hb (ih hmore)
    · exact .looked hb hlooked.becomes (ih hmore)

/-- The breaks of all lines stay if those of the lines outside of blocks do. -/
theorem rareBreaks_escapeLines (h : escapeLines block lines = .ok outs) :
    outs.map rareBreaks = lines.map rareBreaks
      ↔ ∀ line ∈ outside block lines, KeepsBreaks line := by
  induction lines generalizing block outs with
  | nil => cases h; simp [outside]
  | cons line rest ih =>
    obtain ⟨out, more, rfl, ⟨hb, rfl, hmore⟩ | ⟨hb, hlooked, hmore⟩⟩ := exists_of_escapeLines h
    · rw [outside, if_pos hb, ← ih hmore]
      simp
    · rw [outside, if_neg (by simp [hb]), List.forall_mem_cons, ← ih hmore, ← hlooked.breaks]
      simp

theorem Walk.oneLine (h : Walk block lines outs) (hone : ∀ line ∈ lines, OneLine line) :
    ∀ out ∈ outs, OneLine out := by
  induction h with
  | done => simp
  | copied _ _ ih =>
    rw [List.forall_mem_cons] at hone ⊢
    exact ⟨hone.1, ih hone.2⟩
  | looked _ hbecomes _ ih =>
    rw [List.forall_mem_cons] at hone ⊢
    exact ⟨hbecomes.oneLine hone.1, ih hone.2⟩

/-! ## Counting lines -/

theorem next_line {c : Cursor} {ch : Char} {r : Text} (h : c.rest = ch :: r) (hr : ch ≠ '\r') :
    c.next.rest = r ∧ c.next.line = c.line + if isBreak ch then 1 else 0 := by
  have hends : Cursor.endsLine ch (r.headD endChar) = isBreak ch := by
    simp [Cursor.endsLine, isBreak, hr]
  rw [Cursor.next, h]
  dsimp only
  rw [hends]
  split
  · exact ⟨rfl, rfl⟩
  · split <;> exact ⟨rfl, rfl⟩

/-- Past a text without carriage returns the line is greater by the number of its breaks. -/
theorem line_advance {c : Cursor} {w r : Text} (h : c.rest = w ++ r) (hr : '\r' ∉ w) :
    (c.advance w.length).line = c.line + w.countP isBreak := by
  induction w generalizing c with
  | nil => rfl
  | cons ch w ih =>
    rw [List.mem_cons, not_or] at hr
    obtain ⟨hrest, hline⟩ := next_line h (Ne.symm hr.1)
    rw [List.length_cons, Cursor.advance, ih hrest hr.2, hline, List.countP_cons]
    omega

theorem breaks_of_oneLine (h : OneLine line) : line.countP isBreak = rareBreaks line := by
  refine List.countP_congr fun c hc => ?_
  have hfeed : c ≠ '\n' := fun he => h.1 (he ▸ hc)
  have hreturn : c ≠ '\r' := fun he => h.2 (he ▸ hc)
  simp [isBreak_eq, hfeed, hreturn]

/-- Between two lines there is one break, and in each there are its rare ones. -/
theorem breaks_ofLines (hne : lines ≠ []) (hone : ∀ line ∈ lines, OneLine line) :
    (Text.ofLines lines).countP isBreak + 1 = lines.length + (lines.map rareBreaks).sum := by
  induction lines with
  | nil => exact absurd rfl hne
  | cons line rest ih =>
    rw [List.forall_mem_cons] at hone
    have hline := breaks_of_oneLine hone.1
    cases rest with
    | nil =>
      simp only [List.length_cons, List.length_nil, List.map_cons, List.map_nil, List.sum_cons,
        List.sum_nil]
      rw [show Text.ofLines [line] = line from rfl, hline]
      omega
    | cons below rest =>
      have hrest := ih (List.cons_ne_nil _ _) hone.2
      rw [Text.ofLines_cons line (List.cons_ne_nil _ _), List.countP_append,
        List.countP_cons_of_pos (by decide), hline, List.length_cons, List.map_cons, List.sum_cons]
      omega

theorem lineNumber_ofLines (hone : ∀ line ∈ lines, OneLine line) {i : Nat}
    (hi : i < lines.length) :
    lineNumber (Text.ofLines lines) i = i + ((lines.map rareBreaks).take (i + 1)).sum := by
  have hne : lines ≠ [] := List.ne_nil_of_length_pos (by omega)
  have hfront : lines.take (i + 1) ≠ [] := by simp [hne]
  have hones : ∀ line ∈ lines.take (i + 1), OneLine line := fun l hl =>
    hone l (List.mem_of_mem_take hl)
  obtain ⟨r, hr⟩ := Text.exists_ofLines_append hfront (lines.drop (i + 1))
  rw [List.take_append_drop] at hr
  have hreturn : '\r' ∉ Text.ofLines (lines.take (i + 1)) :=
    Text.not_mem_ofLines (by decide) fun l hl => (hones l hl).2
  have hline := line_advance (c := Cursor.start (Text.ofLines lines)) hr hreturn
  have hstart : (Cursor.start (Text.ofLines lines)).line = 0 := rfl
  have hcount := breaks_ofLines hfront hones
  rw [List.length_take, Nat.min_eq_left (by omega), List.map_take] at hcount
  rw [lineNumber, Text.lines_ofLines hne fun l hl => (hone l hl).1, hline]
  omega

/-- Two lists of numbers are the same if all their beginnings have the same sum. -/
theorem eq_iff_sums {as bs : List Nat} (hl : as.length = bs.length) :
    as = bs ↔ ∀ i < bs.length, (as.take (i + 1)).sum = (bs.take (i + 1)).sum := by
  induction as generalizing bs with
  | nil => cases bs <;> simp_all
  | cons a as ih =>
    cases bs with
    | nil => cases hl
    | cons b bs =>
      rw [List.cons.injEq, ih (Nat.succ.inj hl)]
      constructor
      · rintro ⟨rfl, h⟩ i hi
        cases i with
        | zero => simp
        | succ i => simpa using h i (by simpa using hi)
      · intro h
        obtain rfl : a = b := by simpa using h 0 (by simp)
        exact ⟨rfl, fun i hi => by simpa using h (i + 1) (by simpa using hi)⟩

/-! ## Whole texts -/

/-- An escaped text has no carriage returns and a line for every line of the text. Each is the line
itself or has a quoted scalar for its value, behind the same indentation and key, and the lines of
blocks are the lines themselves. A YAML reader counts the lines of the escaped text as it counts
those of the text exactly if each text that is quoted has as many rare breaks as its value. -/
theorem lines_of_escape {text escaped : Text} (h : escape text = .ok escaped) :
    '\r' ∉ escaped ∧ escaped.lines.length = text.unifyBreaks.lines.length
      ∧ Walk none text.unifyBreaks.lines escaped.lines
      ∧ ((∀ i < text.unifyBreaks.lines.length,
          lineNumber escaped i = lineNumber text.unifyBreaks i)
        ↔ ∀ line ∈ outside none text.unifyBreaks.lines, KeepsBreaks line) := by
  obtain ⟨outs, houts, rfl⟩ := exists_of_map h
  have hreturn := Text.not_mem_unifyBreaks text
  have hsource : Text.ofLines text.unifyBreaks.lines = text.unifyBreaks := Text.join_split _ _
  generalize text.unifyBreaks = source at *
  have hwalk := walk_of_escapeLines houts
  have hlength := length_escapeLines houts
  have hones : ∀ line ∈ source.lines, OneLine line := fun l hl =>
    ⟨Text.not_mem_of_mem_lines hl, fun hm => hreturn (Text.mem_of_mem_lines hl hm).1⟩
  have honeOuts := hwalk.oneLine hones
  have hne : outs ≠ [] := by
    have hpos : source.lines ≠ [] := Text.split_ne_nil _ source
    exact List.ne_nil_of_length_pos (hlength ▸ List.length_pos_of_ne_nil hpos)
  have hlines : (Text.ofLines outs).lines = outs :=
    Text.lines_ofLines hne fun l hl => (honeOuts l hl).1
  rw [hlines]
  refine ⟨Text.not_mem_ofLines (by decide) fun l hl => (honeOuts l hl).2, hlength, hwalk, ?_⟩
  rw [← rareBreaks_escapeLines houts, eq_iff_sums (by simp [hlength]), List.length_map]
  refine forall₂_congr fun i hi => ?_
  have hsourceLine := lineNumber_ofLines hones hi
  rw [hsource] at hsourceLine
  rw [lineNumber_ofLines honeOuts (hlength ▸ hi), hsourceLine, Nat.add_left_cancel_iff]

/-- A block, a formula with a rare break, and a quoted text that begins with the mark. -/
def brokenLines : Text := "N: |\r\n  k: =yes\r\nT: =a\u0085b\r\nU: \"\\x1ec\"".toList

theorem lines_of_escape_brokenLines :
    ∃ escaped, escape brokenLines = .ok escaped
      ∧ Walk none brokenLines.unifyBreaks.lines escaped.lines
      ∧ ∀ i < 4, lineNumber escaped i = lineNumber brokenLines.unifyBreaks i := by
  have hescape : escape brokenLines = .ok
      "N: |\n  k: =yes\nT: \"\\u001ea\u0085b\"\nU: \"\\u001e\\u001ec\"".toList :=
    eq_ok_of_toOption (by decide +kernel)
  have houtside : outside none brokenLines.unifyBreaks.lines
      = ["N: |".toList, "T: =a\u0085b".toList, "U: \"\\x1ec\"".toList] := by decide +kernel
  have hblock : KeyLine.parse? "N: |".toList = some ⟨[], ['N'], some ([' '], ['|'])⟩ := rfl
  have hformula : KeyLine.parse? "T: =a\u0085b".toList
    = some ⟨[], ['T'], some ([' '], formulaSign :: "a\u0085b".toList)⟩ := rfl
  have hmarked : KeyLine.parse? "U: \"\\x1ec\"".toList
    = some ⟨[], ['U'], some ([' '], "\"\\x1ec\"".toList)⟩ := rfl
  have htreated : treatment (Text.trim ['U']) "\"\\x1ec\"".toList
    = .ok (.quote "\x1e\x1ec".toList) := eq_ok_of_toOption (by decide +kernel)
  obtain ⟨-, -, hwalk, hnumbers⟩ := lines_of_escape hescape
  refine ⟨_, hescape, hwalk, hnumbers.2 ?_⟩
  rw [houtside]
  simp only [List.forall_mem_cons, keepsBreaks_iff hformula (treatment_of_formula _ _),
    keepsBreaks_iff hmarked htreated]
  refine ⟨?_, by decide, by decide, by simp⟩
  rw [KeepsBreaks, onValue_iff hblock, treatment_of_isBlockHeader (by decide)]
  simp

/-- A quoted text with an escape for the next line character, above a quotation mark that is never
closed. -/
def unclosedText : Text := "T: \"\\x1ea\\Nb\"\nU: 'x\n".toList

/-- The quotation mark is on the second line and reported on the third. -/
theorem unclosedText_reported :
    unclosedText.unifyBreaks.lines[1]? = some "U: 'x".toList
      ∧ (∃ escaped, escape unclosedText = .ok escaped ∧ lineNumber unclosedText.unifyBreaks 1 = 1
        ∧ lineNumber escaped 1 = 2)
      ∧ Document.parse unclosedText = .error (.unparsed ("while scanning a quoted scalar\n".toList
        ++ "  in \"<unicode string>\", line 3, column 4:\n    U: 'x\n       ^\n".toList
        ++ "found unexpected end of stream\n".toList
        ++ "  in \"<unicode string>\", line 4, column 1:\n    \n    ^".toList)) := by
  have hescape : escape unclosedText = .ok "T: \"\\u001e\\u001ea\u0085b\"\nU: 'x\n".toList :=
    eq_ok_of_toOption (by decide +kernel)
  exact ⟨by decide, ⟨_, hescape, by decide +kernel, by decide +kernel⟩, by decide +kernel⟩

end Formula

end ModernControls
