import Mathlib.Data.List.TakeWhile
import ModernControls.Proofs.Yaml.Quoted

/-!
# Reading plain scalars

A plain scalar is read in parts with spaces between them. A text that may be written plain is read
as a whole, both before a colon, where it is a key, and at the end of its line, where the next line
must not be indented so far that it goes on.

Results:
- `plainRun_word`: a part ends where the word ends;
- `plainGap_feed`: at the end of a line the cursor moves to what the next line begins with;
- `plainParts_text`: all parts together are the text;
- `plain_key`, `plain_line`: so a plain text is read whole before a colon and at the end of a line.
-/
namespace ModernControls.Yaml

open Layout

/-- What may stand where a line or an item begins: no blank and no mark that would be passed over,
and no mark of a document. -/
structure Opens (body : Text) : Prop where
  head : ∀ c ∈ body.head?, c ≠ ' ' ∧ c ≠ '#' ∧ c ≠ '\uFEFF' ∧ isBreak c = false
  start : Text.startsWith body ['-', '-', '-'] = false
  finish : Text.startsWith body ['.', '.', '.'] = false

theorem Opens.nil : Opens [] := ⟨by simp, rfl, rfl⟩

/-- What separates a mark from what follows: a gap or the end of a line. -/
def Parts (raw : Text) : Prop := ∃ c r, raw = c :: r ∧ (c = ' ' ∨ c = '\n')

theorem Parts.separated {raw : Text} {c : Cursor} {ch : Char} (h : Parts raw)
    (hc : c.rest = ch :: raw) :
    isGapBreakOrEnd (c.peekAt 1) = true ∧ c.peekAt 1 ≠ '-' ∧ c.peekAt 1 ≠ '.' := by
  obtain ⟨d, r, rfl, hd⟩ := h
  rw [Cursor.peekAt_one hc, List.headD_cons]
  rcases hd with rfl | rfl <;> decide

namespace Cursor

theorem atTriple_of_not_startsWith {c : Cursor} {ch : Char}
    (h : Text.startsWith c.rest [ch, ch, ch] = false) (hc : ch ≠ endChar) :
    c.atTriple ch = false := by
  cases ht : c.atTriple ch with
  | false => rfl
  | true =>
    simp only [atTriple, Bool.and_eq_true, decide_eq_true_eq] at ht
    obtain ⟨⟨⟨h0, h1⟩, h2⟩, -⟩ := ht
    rw [peek] at h0
    rw [peekAt] at h1 h2
    cases hr : c.rest with
    | nil => rw [hr] at h0; exact absurd h0.symm hc
    | cons a r =>
      cases r with
      | nil => rw [hr] at h1; exact absurd h1.symm hc
      | cons b r =>
        cases r with
        | nil => rw [hr] at h2; exact absurd h2.symm hc
        | cons d r =>
          rw [hr] at h h0 h1 h2
          simp only [List.headD_cons, List.drop_succ_cons, List.drop_zero] at h0 h1 h2
          simp [Text.startsWith, h0, h1, h2] at h

theorem not_atDocumentIndicator {c : Cursor} {n : Nat} {body : Text}
    (h : c.rest = Text.spaces n ++ body) (hb : Opens body) : c.atDocumentIndicator = false := by
  have hs : ∀ ch : Char, ch ≠ ' ' → Text.startsWith body [ch, ch, ch] = false →
      Text.startsWith c.rest [ch, ch, ch] = false := by
    intro ch hne hstart
    rw [h]
    cases n with
    | zero => exact hstart
    | succ n =>
      have : Text.spaces (n + 1) ++ body = ' ' :: (Text.spaces n ++ body) := rfl
      simp [this, Text.startsWith, Ne.symm hne]
  rw [atDocumentIndicator, atTriple_of_not_startsWith (hs '-' (by decide) hb.start) (by decide),
    atTriple_of_not_startsWith (hs '.' (by decide) hb.finish) (by decide)]
  rfl

end Cursor

/-- A text that a plain scalar may go on with after a character: on one line, without marks that
end it, and not ending in a space. -/
structure Flows (before : Char) (t : Text) : Prop where
  inline : ∀ c ∈ t, isInline c = true
  marks : holdsIndicatorAfter before t = false
  last : t.getLast? ≠ some ' '

theorem holdsIndicatorAfter_of_append {b x : Char} {a t : Text}
    (h : holdsIndicatorAfter b (a ++ x :: t) = false) : holdsIndicatorAfter x t = false := by
  induction a generalizing b with
  | nil =>
    rw [List.nil_append, holdsIndicatorAfter, Bool.or_eq_false_iff] at h
    exact h.2
  | cons y a ih =>
    rw [List.cons_append, holdsIndicatorAfter, Bool.or_eq_false_iff] at h
    exact ih h.2

theorem Flows.of_append {b x : Char} {a t : Text} (h : Flows b (a ++ x :: t)) (ht : t ≠ []) :
    Flows x t where
  inline c hc := h.inline c (List.mem_append_right _ (List.mem_cons_of_mem _ hc))
  marks := holdsIndicatorAfter_of_append h.marks
  last := by
    obtain ⟨y, t, rfl⟩ := List.exists_cons_of_ne_nil ht
    have := h.last
    rw [List.getLast?_append, List.getLast?_cons_cons] at this
    simpa using this

/-- A text begins with a word. There it is over, or it goes on with a further word after some
spaces, as it does not end in one. -/
theorem Flows.exists_word {before : Char} {t : Text} (h : Flows before t) (ht : t ≠ [])
    (hhead : ∀ ch ∈ t.head?, ch ≠ ' ') :
    ∃ d w u, t = d :: w ++ u ∧ (∀ ch ∈ d :: w, isInline ch = true ∧ ch ≠ ' ')
      ∧ (u = [] ∨ ∃ n x t', u = Text.spaces (n + 1) ++ x :: t' ∧ x ≠ ' ' ∧ x ≠ '#'
        ∧ Flows ' ' (x :: t')) := by
  obtain ⟨d, t, rfl⟩ := List.exists_cons_of_ne_nil ht
  have hword : ∀ ch ∈ d :: t.takeWhile (· ≠ ' '), isInline ch = true ∧ ch ≠ ' ' := by
    intro ch hch
    rcases List.mem_cons.1 hch with rfl | hch
    · exact ⟨h.inline ch List.mem_cons_self, hhead ch rfl⟩
    · exact ⟨h.inline ch (List.mem_cons_of_mem _ (List.takeWhile_subset _ hch)),
        by simpa using List.mem_takeWhile_imp hch⟩
  have hsplit := List.takeWhile_append_dropWhile (p := (· ≠ ' ')) (l := t)
  refine ⟨d, t.takeWhile (· ≠ ' '), t.dropWhile (· ≠ ' '), by rw [List.cons_append, hsplit],
    hword, ?_⟩
  have hend := List.head?_dropWhile_not (· ≠ ' ') t
  cases hu : t.dropWhile (· ≠ ' ') with
  | nil => exact .inl rfl
  | cons s u =>
    rw [hu] at hend hsplit
    obtain rfl : s = ' ' := by simpa using hend
    obtain ⟨n, t', rfl, hx⟩ := Scalar.exists_spaces u
    have hspaces : ' ' :: (Text.spaces n ++ t') = Text.spaces (n + 1) ++ t' := rfl
    rw [hspaces] at hsplit
    rw [← hsplit] at h
    cases t' with
    | nil =>
      refine absurd ?_ h.last
      rw [List.append_nil, ← List.cons_append, List.getLast?_append]
      simp [Text.spaces, List.getLast?_replicate]
    | cons x t' =>
      have hflows : Flows ' ' (x :: t') := by
        have hlast : Text.spaces (n + 1) = Text.spaces n ++ [' '] := List.replicate_succ'
        rw [hlast, List.append_assoc, ← List.append_assoc, ← List.cons_append] at h
        exact h.of_append (by simp)
      refine .inr ⟨n, x, t', hspaces, hx x rfl, ?_, hflows⟩
      rintro rfl
      have := hflows.marks
      simp [holdsIndicatorAfter, isGapBreakOrEnd, isGap] at this

/-- A text that may be written plain is one character that can begin a plain scalar, and a text
that the scalar may go on with. -/
theorem of_isPlainText {t : Text} (h : isPlainText t = true) :
    ∃ c r, t = c :: r ∧ isInline c = true ∧ firstIndicators.contains c = false ∧ c ≠ ' '
      ∧ (loneIndicators.contains c = true → goesOn r = true)
      ∧ Text.startsWith t ['-', '-', '-'] = false ∧ Text.startsWith t ['.', '.', '.'] = false
      ∧ (∀ d ∈ t, isInline d = true) ∧ holdsIndicatorAfter c r = false
      ∧ t.getLast? ≠ some ' ' := by
  cases t with
  | nil => simp [isPlainText] at h
  | cons c r =>
    simp only [isPlainText, keepsSpaces, startsLikeIndicator, holdsIndicator, hasGapAtEdge,
      isMultiline, Bool.and_eq_true, Bool.not_eq_true', Bool.or_eq_false_iff, List.all_eq_true,
      List.any_eq_false, List.head?_cons, Option.any_some, Bool.not_eq_true] at h
    obtain ⟨⟨⟨⟨⟨-, hord, -⟩, hhead, hlast⟩, hfold⟩, ⟨⟨hfirst, hlone⟩, hstart⟩, hfin⟩, hmarks⟩ := h
    have hinline : ∀ d ∈ c :: r, isInline d = true := fun d hd => by
      simp [isInline, hord d hd, hfold d hd]
    refine ⟨c, r, rfl, hinline c List.mem_cons_self, hfirst, ?_, ?_, hstart, hfin, hinline, hmarks,
      ?_⟩
    · simpa [isSpace] using hhead.1
    · intro hc
      rw [hc] at hlone
      simpa using hlone
    · intro hl
      rw [hl] at hlast
      simp [isSpace] at hlast

theorem Flows.of_isPlainText {t : Text} (h : isPlainText t = true) (before : Char) :
    Flows before t := by
  obtain ⟨c, r, rfl, -, hfirst, -, hlone, -, -, hin, hm, hlast⟩ := Yaml.of_isPlainText h
  refine ⟨hin, ?_, hlast⟩
  have hsharp : c ≠ '#' := by
    rintro rfl
    revert hfirst
    decide
  have hcolon : (c = ':' && !goesOn r) = false := by
    by_cases hc : c = ':'
    · simp [hlone (by rw [hc]; decide)]
    · simp [hc]
  rw [holdsIndicatorAfter, hm, hcolon]
  simp [hsharp]

namespace Scalar

variable {c : Cursor} {r : Text}

/-- A part of a plain scalar ends where its word does. -/
theorem plainRun_word {before : Char} {w u : Text} (hi : ∀ ch ∈ w, isInline ch = true)
    (hw : ∀ ch ∈ w, ch ≠ ' ') (hm : holdsIndicatorAfter before (w ++ u) = false)
    (hu : ∀ ch ∈ u.head?, ch = ' ')
    (hr : u = [] → ∀ ch r', r = ch :: r' → plainStops false ch (r'.headD endChar) = true) :
    plainRun false (w ++ (u ++ r)) = w := by
  induction w generalizing before with
  | nil =>
    cases u with
    | nil =>
      cases r with
      | nil => rfl
      | cons ch r =>
        rw [List.nil_append, List.nil_append, plainRun, if_pos (hr rfl ch r rfl)]
    | cons ch u =>
      obtain rfl : ch = ' ' := hu ch rfl
      have : ∀ d, plainStops false ' ' d = true := fun d => rfl
      simp [plainRun, this]
  | cons ch w ih =>
    have hch := isGapBreakOrEnd_of_isInline (hi ch List.mem_cons_self)
    rw [decide_eq_false (hw ch List.mem_cons_self)] at hch
    rw [List.cons_append, holdsIndicatorAfter, Bool.or_eq_false_iff, Bool.or_eq_false_iff] at hm
    have hstop : plainStops false ch ((w ++ (u ++ r)).headD endChar) = false := by
      simp only [plainStops, hch, Bool.false_and, Bool.or_false, Bool.false_or,
        Bool.and_eq_false_iff, decide_eq_false_iff_not]
      by_cases hc : ch = ':'
      · -- A colon is followed by a character of the word, as the text has none before a gap.
        refine .inr ?_
        have hgo : goesOn (w ++ u) = true := by simpa [hc] using hm.1.1
        cases w with
        | nil =>
          cases u with
          | nil => simp [goesOn] at hgo
          | cons d u =>
            obtain rfl : d = ' ' := hu d rfl
            simp [goesOn, isGapBreakOrEnd, isGap] at hgo
        | cons d w =>
          have hd := isGapBreakOrEnd_of_isInline
            (hi d (List.mem_cons_of_mem _ List.mem_cons_self))
          rw [decide_eq_false (hw d (List.mem_cons_of_mem _ List.mem_cons_self))] at hd
          exact hd
      · exact .inl hc
    rw [List.cons_append, plainRun, hstop]
    simp only [Bool.false_eq_true, if_false]
    rw [ih (fun d hd => hi d (List.mem_cons_of_mem _ hd))
      (fun d hd => hw d (List.mem_cons_of_mem _ hd)) hm.2]

/-- Between two words of a line there are the spaces. -/
theorem plainGap_spaces {n : Nat} {ch : Char} (h : c.rest = Text.spaces n ++ ch :: r)
    (hs : ch ≠ ' ') (hb : isBreak ch = false) :
    plainGap c = (Text.spaces n, false, c.advance n) := by
  have hsk : c.skipSpaces = c.advance n := Cursor.skipSpaces_spaces h (by simpa using hs)
  have hrun : c.run (· = ' ') = Text.spaces n := Cursor.run_word h
    (fun d hd => by simpa using List.eq_of_mem_replicate hd) (by simpa using hs)
  have hp : (c.advance n).peek = ch := Cursor.peek_cons (Cursor.advance_spaces h).1
  rw [plainGap, hsk, hrun]
  simp only [hp, hb, Bool.false_eq_true, if_false]

theorem plainBreaks_spaces {n budget : Nat} {body : Text} (h : c.rest = Text.spaces n ++ body)
    (hn : n < budget) (hb : Opens body) : plainBreaks budget c = (some [], c.advance n) := by
  induction n generalizing c budget with
  | zero =>
    obtain ⟨budget, rfl⟩ : ∃ b, budget = b + 1 := ⟨budget - 1, by omega⟩
    have h : c.rest = body := h
    cases body with
    | nil =>
      rw [plainBreaks, Cursor.peek_nil h]
      rfl
    | cons d body =>
      obtain ⟨h1, -, -, h4⟩ := hb.head d rfl
      rw [plainBreaks, Cursor.peek_cons h]
      simp only [h1, h4, Bool.false_eq_true, if_false]
      rfl
  | succ n ih =>
    obtain ⟨budget, rfl⟩ : ∃ b, budget = b + 1 := ⟨budget - 1, by omega⟩
    have hc : c.rest = ' ' :: (Text.spaces n ++ body) := h
    have hn' : c.next.rest = Text.spaces n ++ body := by rw [Cursor.rest_next, hc]; rfl
    rw [plainBreaks, Cursor.peek_cons hc]
    simp only [if_true]
    rw [ih hn' (by omega)]
    rfl

/-- At the end of a line the cursor moves to what the next line begins with. -/
theorem plainGap_feed {n : Nat} {body : Text} (h : c.rest = '\n' :: (Text.spaces n ++ body))
    (hb : Opens body) :
    plainGap c = ([' '], true, c.next.advance n) ∧ (c.next.advance n).rest = body
      ∧ (c.next.advance n).column = n := by
  have hn : c.next.rest = Text.spaces n ++ body := by rw [Cursor.rest_next, h]; rfl
  obtain ⟨h1, -, -, h4⟩ := Cursor.advance_spaces hn
  have hsk : c.skipSpaces = c := Cursor.skip_none (by rw [h]; simp)
  have hcol : c.next.column = 0 := by rw [Cursor.next_feed h]
  refine ⟨?_, h1, by rw [h4, hcol, Nat.zero_add]⟩
  have hbr : isBreak '\n' = true := by decide
  rw [plainGap, hsk, Cursor.peek_cons h]
  simp only [hbr, if_true, Cursor.takeBreak_feed h, Cursor.not_atDocumentIndicator hn hb,
    Bool.false_eq_true, if_false]
  have hlen : n < c.next.rest.length + 1 := by
    rw [hn]
    simp only [List.length_append, Text.length_spaces]
    omega
  rw [plainBreaks_spaces hn hlen hb]
  simp

/-- One part of a plain scalar and the gap after it: the scalar is over there, or goes on. -/
theorem plainParts_part {d : Char} {w gap' : Text} {budget indent : Nat} {ended : Bool}
    {c' : Cursor} (gap v : Text) (f : Mark) (e : Bool) (hrun : plainRun false c.rest = d :: w)
    (hpeek : c.peek ≠ '#') (hgap : plainGap (c.advance (d :: w).length) = (gap', ended, c')) :
    plainParts false indent (budget + 1) gap ⟨v, f, e, c⟩
      = if gap' = [] ∨ c'.peek = '#' ∨ c'.column < indent then
          ⟨v ++ gap ++ d :: w, (c.advance (d :: w).length).mark, ended, c'⟩
        else plainParts false indent budget gap'
          ⟨v ++ gap ++ d :: w, (c.advance (d :: w).length).mark, ended, c'⟩ := by
  rw [plainParts]
  simp only [hpeek, if_false, hrun, List.isEmpty_cons, Bool.false_eq_true, hgap,
    List.isEmpty_iff, Bool.not_false, true_and]

/-- A plain text and what follows it: `gap'` is what is read after it, and the scalar is over
there. The induction is on the length of the text, word by word. -/
theorem plainParts_text {before : Char} {t gap' : Text} {budget indent : Nat} {ended : Bool}
    {c' : Cursor} (gap v : Text) (f : Mark) (e : Bool) (ht : t ≠ []) (hf : Flows before t)
    (hhead : ∀ ch ∈ t.head?, ch ≠ ' ' ∧ ch ≠ '#') (hc : c.rest = t ++ r)
    (hcol : indent ≤ c.column + 1) (hb : t.length < budget)
    (hr : ∀ ch r', r = ch :: r' → plainStops false ch (r'.headD endChar) = true)
    (hgap : plainGap (c.advance t.length) = (gap', ended, c'))
    (hstop : gap' = [] ∨ c'.column < indent) :
    ∃ f', plainParts false indent budget gap ⟨v, f, e, c⟩ = ⟨v ++ gap ++ t, f', ended, c'⟩ := by
  induction hl : t.length using Nat.strongRecOn generalizing before t gap v budget f e c with
  | ind k ih =>
    subst hl
    obtain ⟨budget, rfl⟩ : ∃ b, budget = b + 1 := ⟨budget - 1, by omega⟩
    obtain ⟨d, w, u, rfl, hword, hu⟩ := hf.exists_word ht fun ch hch => (hhead ch hch).1
    have hsharp : d ≠ '#' := (hhead d rfl).2
    have hcr : c.rest = (d :: w) ++ (u ++ r) := by rw [hc, List.append_assoc]
    have hgoes : ∀ ch ∈ u.head?, ch = ' ' := by
      rcases hu with rfl | ⟨n, x, t', rfl, -⟩
      · simp
      · simp [Text.spaces, List.replicate_succ]
    have hrun : plainRun false c.rest = d :: w := by
      rw [hcr]
      exact plainRun_word (fun ch hch => (hword ch hch).1) (fun ch hch => (hword ch hch).2)
        hf.marks hgoes fun _ => hr
    have hpeek : c.peek ≠ '#' := by
      rw [Cursor.peek_cons (r := w ++ (u ++ r)) hcr]
      exact hsharp
    have hnb : ∀ ch ∈ d :: w, isBreak ch = false := fun ch hch =>
      isBreak_of_isInline (hword ch hch).1
    have hnf : '\uFEFF' ∉ d :: w := fun hm => (of_isInline (hword _ hm).1).2.2 rfl
    obtain ⟨hrest, -, -, -⟩ := Cursor.advance_word hcr hnb
    have hcolw := Cursor.column_advance hcr hnb hnf
    rcases hu with rfl | ⟨n, x, t', rfl, hx, hxs, hf'⟩
    · rw [List.append_nil] at hgap ⊢
      rw [plainParts_part gap v f e hrun hpeek hgap]
      refine ⟨(c.advance (d :: w).length).mark, if_pos ?_⟩
      rcases hstop with hstop | hlt
      · exact .inl hstop
      · exact .inr (.inr hlt)
    · have hspaces : (c.advance (d :: w).length).rest = Text.spaces (n + 1) ++ x :: (t' ++ r) := by
        rw [hrest, List.append_assoc, List.cons_append]
      have hg := plainGap_spaces hspaces hx (isBreak_of_isInline (hf'.inline x List.mem_cons_self))
      obtain ⟨g1, -, -, g4⟩ := Cursor.advance_spaces hspaces
      rw [hcolw] at g4
      have hp : ((c.advance (d :: w).length).advance (n + 1)).peek = x := Cursor.peek_cons g1
      have hgoesOn : ¬(Text.spaces (n + 1) = []
          ∨ ((c.advance (d :: w).length).advance (n + 1)).peek = '#'
          ∨ ((c.advance (d :: w).length).advance (n + 1)).column < indent) := by
        rw [hp, g4]
        rintro (hnil | hmark | hlt)
        · cases hnil
        · exact hxs hmark
        · simp only [List.length_cons] at hlt
          omega
      rw [plainParts_part gap v f e hrun hpeek hg, if_neg hgoesOn]
      have hlen : (d :: w ++ (Text.spaces (n + 1) ++ x :: t')).length
          = (d :: w).length + ((n + 1) + (x :: t').length) := by
        simp only [List.length_append, Text.length_spaces]
      rw [hlen, Cursor.advance_add, Cursor.advance_add] at hgap
      rw [hlen] at hb
      have hbudget : (x :: t').length < budget := by
        simp only [List.length_cons] at hb ⊢
        omega
      obtain ⟨f', hi⟩ := ih (x :: t').length
        (by rw [hlen]; simp only [List.length_cons]; omega) (Text.spaces (n + 1))
        (v ++ gap ++ d :: w) (c.advance (d :: w).length).mark false (by simp) hf'
        (by simpa using ⟨hx, hxs⟩) g1 (by rw [g4]; simp only [List.length_cons]; omega)
        hbudget hgap rfl
      refine ⟨f', hi.trans ?_⟩
      simp only [List.append_assoc]

/-- A plain scalar and what is read after it, where it is over. -/
theorem plain_text {t gap : Text} {indent : Nat} {ended : Bool} {c' : Cursor}
    (ht : isPlainText t = true) (h : c.rest = t ++ r) (hi : indent ≤ c.column + 1)
    (hr : ∀ ch r', r = ch :: r' → plainStops false ch (r'.headD endChar) = true)
    (hgap : plainGap (c.advance t.length) = (gap, ended, c'))
    (hstop : gap = [] ∨ c'.column < indent) :
    ∃ token : Token, plain false indent c = (token, ended, c')
      ∧ token.kind = .scalar t .plain := by
  obtain ⟨d, r', rfl, -, hfirst, hs, -⟩ := of_isPlainText ht
  have hsharp : d ≠ '#' := by
    rintro rfl
    revert hfirst
    decide
  obtain ⟨f', hp⟩ := plainParts_text [] [] c.mark false (List.cons_ne_nil d r')
    (.of_isPlainText ht ' ') (by simpa using ⟨hs, hsharp⟩) h hi
    (show (d :: r').length < c.rest.length + 1 by
      rw [h]
      simp only [List.length_append]
      omega) hr hgap hstop
  refine ⟨⟨.scalar (d :: r') .plain, c.mark, f'⟩, ?_, rfl⟩
  rw [plain, hp]
  rfl

/-- A plain text before a colon. -/
theorem plain_key {t raw : Text} {indent : Nat} (ht : isPlainText t = true)
    (h : c.rest = t ++ ':' :: raw) (hr : Parts raw) (hi : indent ≤ c.column + 1) :
    ∃ token : Token, plain false indent c = (token, false, c.advance t.length)
      ∧ token.kind = .scalar t .plain := by
  refine plain_text ht h hi ?_
    (plainGap_spaces (n := 0) (by rw [Cursor.rest_advance, h, List.drop_left]; rfl) (by decide)
      (by decide)) (.inl rfl)
  rintro ch r' heq
  obtain ⟨rfl, rfl⟩ := List.cons.inj heq
  obtain ⟨e, r, rfl, rfl | rfl⟩ := hr <;> rfl

/-- A plain text at the end of a line, before a line that is not indented as far. -/
theorem plain_line {t body : Text} {indent n : Nat} (ht : isPlainText t = true)
    (h : c.rest = t ++ '\n' :: (Text.spaces n ++ body)) (hb : Opens body)
    (hi : indent ≤ c.column + 1) (hn : n < indent) :
    ∃ (token : Token) (c' : Cursor), plain false indent c = (token, true, c')
      ∧ token.kind = .scalar t .plain ∧ c'.rest = body ∧ c'.column = n := by
  have hrest : (c.advance t.length).rest = '\n' :: (Text.spaces n ++ body) := by
    rw [Cursor.rest_advance, h, List.drop_left]
  obtain ⟨hgap, h1, h2⟩ := plainGap_feed hrest hb
  obtain ⟨token, hp, hk⟩ := plain_text ht h hi
    (fun ch r' heq => by obtain ⟨rfl, rfl⟩ := List.cons.inj heq; rfl) hgap (.inr (by omega))
  exact ⟨token, _, hp, hk, h1, h2⟩

end Scalar

end ModernControls.Yaml
