import ModernControls.Proofs.Yaml.Lexing

/-!
# Reading literal blocks

A literal block is a header and lines below it, each at an indentation, empty ones without it. The
header says whether the last line break belongs to the text; the lines say the rest.

Results:
- `blockLines_lines`: the lines of a block are read up to the line that is indented less;
- `block_literal`: a literal block is read as its lines, with or without the break at the end;
- `Ready.literal`: the token reader goes on with the line after the block.
-/
namespace ModernControls.Yaml

/-- The lines of a block at an indentation. -/
def blockText (indent : Nat) (lines : List Text) : Text :=
  lines.flatMap fun l => (if l.isEmpty then [] else Text.spaces indent ++ l) ++ ['\n']

/-- Lines, each with the break at its end. -/
def closedLines (lines : List Text) : Text := lines.flatMap (· ++ ['\n'])

/-- Whether all characters of the lines are on their lines. -/
def OnLines (lines : List Text) : Prop := ∀ l ∈ lines, ∀ c ∈ l, isBreakOrEnd c = false

theorem ofLines_append_feed {lines : List Text} (h : lines ≠ []) :
    Text.ofLines lines ++ ['\n'] = closedLines lines := by
  induction lines with
  | nil => exact absurd rfl h
  | cons l ls ih =>
    cases ls with
    | nil => simp [Text.ofLines, Text.join, closedLines]
    | cons l' ls =>
      have := ih (by simp)
      rw [Text.ofLines, Text.join, List.append_assoc, List.append_assoc]
      · rw [closedLines, List.flatMap_cons, ← closedLines, ← this, Text.ofLines]
        simp
      · simp

/-- The empty lines that lines begin with, and the rest. -/
theorem exists_blankLines (lines : List Text) :
    ∃ k rest, lines = List.replicate k [] ++ rest ∧ ∀ l ∈ rest.head?, l ≠ [] := by
  induction lines with
  | nil => exact ⟨0, [], rfl, by simp⟩
  | cons l lines ih =>
    obtain ⟨k, rest, rfl, hr⟩ := ih
    by_cases hl : l = []
    · exact ⟨k + 1, rest, by rw [hl]; rfl, hr⟩
    · exact ⟨0, l :: (List.replicate k [] ++ rest), rfl, by simpa using hl⟩

theorem blockText_blanks (indent k : Nat) (rest : List Text) :
    blockText indent (List.replicate k [] ++ rest)
      = List.replicate k '\n' ++ blockText indent rest := by
  induction k with
  | zero => rfl
  | succ k ih =>
    rw [List.replicate_succ, List.cons_append, blockText, List.flatMap_cons, ← blockText, ih]
    rfl

theorem closedLines_blanks (k : Nat) (rest : List Text) :
    closedLines (List.replicate k [] ++ rest) = List.replicate k '\n' ++ closedLines rest := by
  induction k with
  | zero => rfl
  | succ k ih =>
    rw [List.replicate_succ, List.cons_append, closedLines, List.flatMap_cons, ← closedLines, ih]
    rfl

namespace Scalar

variable {c : Cursor} {r body : Text} {n k indent : Nat}

/-- At the start of a line the cursor moves to the indentation, or to where less is indented. -/
theorem indentTo_spaces (h : c.rest = Text.spaces n ++ r) (hc : c.column = 0)
    (hr : ∀ ch ∈ r.head?, n < indent → ch ≠ ' ') (hn : n ≤ indent) :
    indentTo indent c = c.advance n := by
  have hmin : min (indent - c.column) (c.run (· = ' ')).length = n := by
    rw [hc, Nat.sub_zero]
    rcases Nat.lt_or_ge n indent with hlt | hge
    · have := Cursor.run_word (p := (· = ' ')) h
        (fun d hd => by simpa using List.eq_of_mem_replicate hd)
        (fun ch hch => by simpa using hr ch hch hlt)
      rw [this, Text.length_spaces]
      omega
    · have : n ≤ (c.run (· = ' ')).length := by
        rw [Cursor.run, h, List.takeWhile_append_of_pos fun d hd => by
          simpa using List.eq_of_mem_replicate hd]
        simp
      omega
  rw [indentTo, hmin]

/-- Empty lines are read up to the first line with a character, at its indentation. -/
theorem blankLines_feeds {budget : Nat}
    (h : c.rest = List.replicate k '\n' ++ (Text.spaces n ++ r)) (hc : c.column = 0)
    (hr : ∀ ch ∈ r.head?, (n < indent → ch ≠ ' ') ∧ isBreak ch = false) (hn : n ≤ indent)
    (hb : k < budget) :
    ∃ c', blankLines indent budget c = (List.replicate k '\n', c') ∧ c'.rest = r
      ∧ c'.column = n := by
  induction k generalizing c budget with
  | zero =>
    obtain ⟨budget, rfl⟩ : ∃ b, budget = b + 1 := ⟨budget - 1, by omega⟩
    have h : c.rest = Text.spaces n ++ r := h
    obtain ⟨h1, -, -, h4⟩ := Cursor.advance_spaces h
    have hpeek : isBreak (c.advance n).peek = false := by
      cases r with
      | nil => rw [Cursor.peek_nil h1]; decide
      | cons ch r => rw [Cursor.peek_cons h1]; exact (hr ch rfl).2
    refine ⟨c.advance n, ?_, h1, by omega⟩
    rw [blankLines, indentTo_spaces h hc (fun ch hch => (hr ch hch).1) hn]
    simp only [hpeek, Bool.false_eq_true, if_false]
    rfl
  | succ k ih =>
    obtain ⟨budget, rfl⟩ : ∃ b, budget = b + 1 := ⟨budget - 1, by omega⟩
    have h0 : c.rest = '\n' :: (List.replicate k '\n' ++ (Text.spaces n ++ r)) := h
    have hind : indentTo indent c = c :=
      indentTo_spaces (n := 0) (r := c.rest) rfl hc (by rw [h0]; simp) (Nat.zero_le _)
    have hnext := Cursor.next_feed h0
    obtain ⟨c', h1, h2, h3⟩ := ih (c := c.next) (by rw [hnext]) (by rw [hnext])
      (show k < budget by omega)
    refine ⟨c', ?_, h2, h3⟩
    rw [blankLines, hind]
    simp only [Cursor.peek_cons h0, show isBreak '\n' = true by decide, if_true,
      Cursor.takeBreak_feed h0, h1]
    rfl

/-- A line is read with the empty lines after it. Where it goes on from there, the next line of the
block is at the cursor, or the block is over. -/
theorem blockLines_line {l : Text} (hl : ∀ ch ∈ l, isBreakOrEnd ch = false)
    (h : c.rest = l ++ '\n' :: (List.replicate k '\n' ++ (Text.spaces n ++ r)))
    (hr : ∀ ch ∈ r.head?, (n < indent → ch ≠ ' ') ∧ isBreak ch = false) (hn : n ≤ indent) :
    ∃ c', c'.rest = r ∧ c'.column = n
      ∧ (atBlockLine indent c' = false → ∀ budget, blockLines false indent (budget + 1) c
          = (l, ['\n'], List.replicate k '\n', c'))
      ∧ (atBlockLine indent c' = true → ∀ {budget text last after c''},
          blockLines false indent budget c' = (text, last, after, c'') →
          blockLines false indent (budget + 1) c
            = (l ++ ['\n'] ++ List.replicate k '\n' ++ text, last, after, c'')) := by
  have hrun : c.run (fun ch => !isBreakOrEnd ch) = l :=
    Cursor.run_word h (fun ch hch => by simp [hl ch hch]) (by simp; decide)
  have hskip : c.skipLine = c.advance l.length :=
    Cursor.skip_run h (fun ch hch => by simp [hl ch hch]) (by simp; decide)
  have hend : (c.advance l.length).rest
      = '\n' :: (List.replicate k '\n' ++ (Text.spaces n ++ r)) := by
    rw [Cursor.rest_advance, h, List.drop_left]
  have hnext := Cursor.next_feed hend
  obtain ⟨c', h1, h2, h3⟩ := blankLines_feeds (c := (c.advance l.length).next) (by rw [hnext])
    (by rw [hnext]) hr hn
    (show k < (c.advance l.length).next.rest.length + 1 by
      rw [hnext]
      simp only [List.length_append, List.length_replicate]
      omega)
  refine ⟨c', h2, h3, fun hat budget => ?_, fun hat {budget text last after c''} hrest => ?_⟩
  · rw [blockLines, hrun, hskip, Cursor.takeBreak_feed hend]
    simp only [h1, hat, Bool.false_eq_true, if_false]
  · rw [blockLines, hrun, hskip, Cursor.takeBreak_feed hend]
    simp only [h1, hat, if_true, hrest, Bool.false_eq_true, false_and, if_false]

/-- The lines of a block from the first on, each with its characters on the line. What comes after
the block is indented less. The induction is on the number of lines, empty ones taken together. -/
theorem blockLines_lines {l : Text} {lines : List Text} {budget : Nat} (hl : l ≠ [])
    (hon : OnLines (l :: lines))
    (h : c.rest = l ++ '\n' :: (blockText indent lines ++ (Text.spaces n ++ body)))
    (hbody : ∀ ch ∈ body.head?, ch ≠ ' ' ∧ isBreak ch = false) (hn : n < indent)
    (hb : lines.length < budget) :
    ∃ text after c', blockLines false indent budget c = (text, ['\n'], after, c')
      ∧ text ++ '\n' :: after = closedLines (l :: lines)
      ∧ ((l :: lines).getLast? ≠ some [] → after = []) ∧ c'.rest = body ∧ c'.column = n := by
  induction hlen : lines.length using Nat.strongRecOn generalizing l lines budget c with
  | ind m ih =>
    subst hlen
    obtain ⟨budget, rfl⟩ : ∃ b, budget = b + 1 := ⟨budget - 1, by omega⟩
    obtain ⟨k, rest, rfl, hrest⟩ := exists_blankLines lines
    rw [blockText_blanks, List.append_assoc] at h
    cases rest with
    | nil =>
      -- The block is over after the empty lines.
      obtain ⟨c', h2, h3, hover, -⟩ := blockLines_line (hon l List.mem_cons_self) h
        (fun ch hch => ⟨fun _ => (hbody ch hch).1, (hbody ch hch).2⟩) (Nat.le_of_lt hn)
      have hat : atBlockLine indent c' = false := by
        rw [atBlockLine, h3, decide_eq_false (by omega)]
        rfl
      refine ⟨l, List.replicate k '\n', c', hover hat budget, ?_, ?_, h2, h3⟩
      · have := closedLines_blanks k []
        rw [closedLines, List.flatMap_cons, ← closedLines, this]
        simp [closedLines]
      · intro hlast
        rcases Nat.eq_zero_or_pos k with rfl | hk
        · rfl
        · exfalso
          apply hlast
          obtain ⟨k, rfl⟩ : ∃ j, k = j + 1 := ⟨k - 1, by omega⟩
          rw [List.append_nil, List.replicate_succ', ← List.cons_append, List.getLast?_append]
          rfl
    | cons l' rest =>
      have hl' : l' ≠ [] := hrest l' rfl
      obtain ⟨d, t, rfl⟩ := List.exists_cons_of_ne_nil hl'
      have hon' : OnLines ((d :: t) :: rest) := fun x hx =>
        hon x (List.mem_cons_of_mem _ (List.mem_append_right _ hx))
      have hd : isBreakOrEnd d = false := hon' _ List.mem_cons_self d List.mem_cons_self
      simp only [isBreakOrEnd, Bool.or_eq_false_iff, decide_eq_false_iff_not] at hd
      have htext : blockText indent ((d :: t) :: rest) ++ (Text.spaces n ++ body)
          = Text.spaces indent ++ ((d :: t) ++ '\n' :: (blockText indent rest
            ++ (Text.spaces n ++ body))) := by
        simp [blockText]
      rw [htext] at h
      obtain ⟨c', h2, h3, -, hgoes⟩ := blockLines_line (hon l List.mem_cons_self) h
        (by simpa using hd.1) (Nat.le_refl _)
      have hat : atBlockLine indent c' = true := by
        rw [atBlockLine, h3, Cursor.peek_cons (r := t ++ _) h2]
        simpa using hd.2
      obtain ⟨text, after, c'', g1, g2, g3, g4, g5⟩ := ih rest.length
        (by simp; omega) hl' hon' h2 (show rest.length < budget by simp at hb; omega) rfl
      refine ⟨l ++ ['\n'] ++ List.replicate k '\n' ++ text, after, c'', hgoes hat g1, ?_, ?_, g4, g5⟩
      · rw [closedLines, List.flatMap_cons, ← closedLines, closedLines_blanks, ← g2]
        simp
      · intro hlast
        apply g3
        rwa [← List.cons_append, List.getLast?_append, List.getLast?_cons, Option.some_or,
          ← List.getLast?_cons] at hlast

/-- The first line shows its indentation. -/
theorem leadingBreaks_spaces {d : Char} {width budget : Nat} (h : c.rest = Text.spaces n ++ d :: r)
    (hd : d ≠ ' ' ∧ isBreak d = false) (hw : width ≤ c.column) (hb : n < budget) :
    leadingBreaks budget width c
      = ([], if n = 0 then width else c.column + n, c.advance n) := by
  induction n generalizing c width budget with
  | zero =>
    obtain ⟨budget, rfl⟩ : ∃ b, budget = b + 1 := ⟨budget - 1, by omega⟩
    rw [leadingBreaks, Cursor.peek_cons (show c.rest = d :: r from h)]
    simp only [hd.1, hd.2, if_false, Bool.false_eq_true]
    rfl
  | succ n ih =>
    obtain ⟨budget, rfl⟩ : ∃ b, budget = b + 1 := ⟨budget - 1, by omega⟩
    have h0 : c.rest = ' ' :: (Text.spaces n ++ d :: r) := h
    have hnext : c.next.column = c.column + 1 := (Cursor.next_char h0 (by decide)).2.2.2.2 (by decide)
    have hrest : c.next.rest = Text.spaces n ++ d :: r := by rw [Cursor.rest_next, h0]; rfl
    have hmax : max width c.next.column = c.next.column := by omega
    rw [leadingBreaks, Cursor.peek_cons h0]
    have hwidth : (if n = 0 then c.next.column else c.next.column + n) = c.column + (n + 1) := by
      split <;> omega
    simp only [if_true, hmax]
    rw [ih hrest (Nat.le_refl _) (by omega), hwidth, if_neg (Nat.succ_ne_zero n)]
    rfl

/-- The sign of a header, by whether the last break belongs to the text. -/
def blockSign (keeps : Bool) : Char := if keeps then '+' else '-'

/-- The text of a block whose lines are given. -/
def blockValue (keeps : Bool) (lines : List Text) : Text :=
  if keeps then closedLines lines else Text.ofLines lines

theorem header_sign {since : Mark} (keeps : Bool) (h : c.rest = blockSign keeps :: '\n' :: r) :
    header since c = .ok (⟨if keeps then .keep else .strip, none⟩, c.next) := by
  have hn : c.next.rest = '\n' :: r := by rw [Cursor.rest_next, h]; rfl
  have hind : indentation since c.next = .ok (none, c.next) := by
    rw [indentation, Cursor.peek_cons hn]
    rfl
  have hsep : isSpaceBreakOrEnd '\n' = true := by decide
  cases keeps with
  | true =>
    have hs : chomping? c = some .keep := by rw [chomping?, Cursor.peek_cons h]; rfl
    rw [header, hs]
    simp [bind, Except.bind, hind, Cursor.peek_cons hn, hsep]
  | false =>
    have hs : chomping? c = some .strip := by rw [chomping?, Cursor.peek_cons h]; rfl
    rw [header, hs]
    simp [bind, Except.bind, hind, Cursor.peek_cons hn, hsep]

theorem ignoredLine_feed {since : Mark} (h : c.rest = '\n' :: r) :
    ignoredLine .blockScalar since c = .ok c.next := by
  have hsk : c.skipSpaces = c := Cursor.skip_none (by rw [h]; simp)
  have hbr : isBreakOrEnd '\n' = true := by decide
  rw [ignoredLine]
  simp only [hsk, Cursor.peek_cons h, show ('\n' : Char) ≠ '#' by decide, if_false, hbr, if_true,
    Cursor.takeBreak_feed h]

/-- The first line of a block shows how far the block is indented, and the block begins there. -/
theorem leadingBreaks_block {d : Char} {t tail : Text} {lines : List Text}
    (h : c.rest = '\n' :: (blockText indent ((d :: t) :: lines) ++ tail)) (hd : d ≠ ' ')
    (hdb : isBreakOrEnd d = false) :
    leadingBreaks (c.next.rest.length + 1) 0 c.next = ([], indent, c.next.advance indent)
      ∧ (c.next.advance indent).rest = (d :: t) ++ '\n' :: (blockText indent lines ++ tail)
      ∧ atBlockLine indent (c.next.advance indent) = true := by
  simp only [isBreakOrEnd, Bool.or_eq_false_iff, decide_eq_false_iff_not] at hdb
  have hnext := Cursor.next_feed h
  have hrest : c.next.rest
      = Text.spaces indent ++ d :: (t ++ '\n' :: (blockText indent lines ++ tail)) := by
    rw [hnext]
    simp [blockText]
  have hcol : c.next.column = 0 := by rw [hnext]
  have hlead := leadingBreaks_spaces hrest ⟨hd, hdb.1⟩ (Nat.zero_le _)
    (show indent < c.next.rest.length + 1 by
      rw [hrest]
      simp only [List.length_append, Text.length_spaces]
      omega)
  have hwidth : (if indent = 0 then 0 else c.next.column + indent) = indent := by
    rw [hcol]
    split <;> omega
  obtain ⟨hat, -, -, hcolumn⟩ := Cursor.advance_spaces hrest
  rw [hcol, Nat.zero_add] at hcolumn
  rw [hwidth] at hlead
  refine ⟨hlead, hat, ?_⟩
  rw [atBlockLine, hcolumn, Cursor.peek_cons hat]
  simpa using hdb.2

theorem block_literal {parent : Nat} {l : Text} {lines : List Text} (keeps : Bool)
    (h : c.rest = '|' :: blockSign keeps :: '\n'
      :: (blockText indent (l :: lines) ++ (Text.spaces n ++ body)))
    (hl : ∃ d t, l = d :: t ∧ d ≠ ' ') (hon : OnLines (l :: lines))
    (hlast : keeps = false → (l :: lines).getLast? ≠ some [])
    (hbody : ∀ ch ∈ body.head?, ch ≠ ' ' ∧ isBreak ch = false) (hn : n < indent)
    (hp : max parent 1 ≤ indent) :
    ∃ (token : Token) (c' : Cursor), block false parent c = .ok (token, c')
      ∧ token.kind = .scalar (blockValue keeps (l :: lines)) .literal ∧ c'.rest = body
      ∧ c'.column = n := by
  obtain ⟨d, t, rfl, hd⟩ := hl
  have hdb : isBreakOrEnd d = false := hon _ List.mem_cons_self d List.mem_cons_self
  have h1 : c.next.rest = blockSign keeps :: '\n'
      :: (blockText indent ((d :: t) :: lines) ++ (Text.spaces n ++ body)) := by
    rw [Cursor.rest_next, h]; rfl
  have h2 : c.next.next.rest
      = '\n' :: (blockText indent ((d :: t) :: lines) ++ (Text.spaces n ++ body)) := by
    rw [Cursor.rest_next, h1]; rfl
  obtain ⟨hlead, h4, hat⟩ := leadingBreaks_block h2 hd hdb
  obtain ⟨text, after, c', g1, g2, g3, g4, g5⟩ := blockLines_lines (List.cons_ne_nil d t)
    hon h4 hbody hn
    (show lines.length < (c.next.next.next.advance indent).rest.length + 1 by
      rw [h4]
      have : lines.length ≤ (blockText indent lines).length :=
        Text.length_le_flatMap fun l _ => by simp
      simp only [List.length_cons, List.length_append]
      omega)
  refine ⟨⟨.scalar (blockValue keeps ((d :: t) :: lines)) .literal, c.mark, c'.mark⟩, c', ?_, rfl,
    g4, g5⟩
  rw [block, header_sign keeps h1]
  simp only [bind, Except.bind, ignoredLine_feed h2, hlead, Nat.max_eq_right hp, hat, if_true, g1,
    List.nil_append]
  cases keeps with
  | true => simp [blockValue, ← g2]
  | false =>
    have hvalue : text = Text.ofLines ((d :: t) :: lines) := by
      rw [g3 (hlast rfl)] at g2
      have := ofLines_append_feed (List.cons_ne_nil (d :: t) lines)
      rw [← g2] at this
      exact (List.append_cancel_right this).symm
    simp [blockValue, hvalue]

end Scalar

namespace Lexer

variable {s : Lexer} {body : Text} {col n : Nat} {al : Bool} {o : List Int} {b : Int}
  {ks : List TokenKind}

/-- A literal block after a key, before a line that is not indented more than the block of the
key. -/
theorem Ready.literal {l : Text} {lines : List Text} {indent : Nat} (keeps : Bool)
    (h : Ready s ('|' :: Scalar.blockSign keeps :: '\n'
      :: (blockText indent (l :: lines) ++ (Text.spaces n ++ body))) col al (b :: o) ks)
    (hl : ∃ d t, l = d :: t ∧ d ≠ ' ') (hon : OnLines (l :: lines))
    (hlast : keeps = false → (l :: lines).getLast? ≠ some []) (hb : b ≤ col) (hb0 : 0 ≤ b)
    (hn : (n : Int) ≤ b) (hi : b < indent) (ho : Opens body) :
    ∃ s', Reaches s s' ∧ Ready s' body n true (b :: o)
      (ks ++ [.scalar (Scalar.blockValue keeps (l :: lines)) .literal]) := by
  obtain ⟨s', hreach, h'⟩ := h.reaches (r := body) hb ⟨_, _, rfl, by decide⟩ (by simp; omega)
    fun s₁ h₁ => by
      have hp : s₁.cursor.peek = '|' := Cursor.peek_cons h₁.rest
      have hindent := (indent_eq h₁).1
      have h₂ := h₁.forget
      obtain ⟨token, c', hblock, hk, hrest, hcol⟩ := Scalar.block_literal keeps h₁.rest hl hon
        hlast (fun ch hch => ⟨(ho.head ch hch).1, (ho.head ch hch).2.2.2⟩) (by omega)
        (show max (s₁.indent + 1).toNat 1 ≤ indent by rw [hindent]; omega)
      refine ⟨{ ({ s₁ with keys := [] } : Lexer).push token with cursor := c', keyAllowed := true },
        ?_, hk ▸ h₂.push token hrest hcol true⟩
      have ht : s₁.token = s₁.blockScalar false := by
        simp [Lexer.token, hp, Cursor.atTriple, h₁.depth]
      rw [ht, blockScalar, h₁.dropKey]
      simp only [bind, Except.bind, hblock]
  exact ⟨s', hreach, h'.ready ho⟩

end Lexer

end ModernControls.Yaml
