import ModernControls.Proofs.Yaml.Scanning

/-!
# Block scalars in two texts

A block scalar ends before the first line that is indented no more than the block allows, and of
that line only its spaces and the character after them are looked at. So a block scalar is read
alike in two texts that are the same up to such a line.

**Cursors above a line (`Above`) and in front of one (`Alike`).** Two cursors in two texts stand
above the lines that end a block, or already in front of what those lines begin with. Every reader
that a block scalar is made of keeps one or the other.

Results:
- `leadingBreaks_alike`, `blankLines_alike`, `blockLines_alike`: what is read of blank lines and of
  lines;
- `block_alike`: a whole block scalar.
-/
namespace ModernControls.Yaml

/-- Two outcomes: errors of any kind, or results that go together. -/
def Together {ε α β : Type} (related : α → β → Prop) : Except ε α → Except ε β → Prop
  | .ok a, .ok b => related a b
  | .error _, .error _ => True
  | _, _ => False

theorem Together.bind {ε α β γ δ : Type} {related : α → β → Prop} {related' : γ → δ → Prop}
    {x : Except ε α} {y : Except ε β} {f : α → Except ε γ} {g : β → Except ε δ}
    (h : Together related x y) (hn : ∀ a b, related a b → Together related' (f a) (g b)) :
    Together related' (x >>= f) (y >>= g) := by
  cases x with
  | error e =>
    cases y with
    | error e' => trivial
    | ok b => exact h.elim
  | ok a =>
    cases y with
    | error e' => exact h.elim
    | ok b => exact hn a b h

/-- What is asked of results that agree in it is the same of the outcomes. -/
theorem Together.map_toOption {ε α β γ : Type} {x : Except ε α} {y : Except ε β} {f : α → γ}
    {g : β → γ} (h : Together (fun a b => f a = g b) x y) :
    x.toOption.map f = y.toOption.map g := by
  cases x with
  | error e =>
    cases y with
    | error e' => rfl
    | ok b => exact h.elim
  | ok a =>
    cases y with
    | error e' => exact h.elim
    | ok b => exact congrArg some h

/-- Two texts that begin with the same spaces, no more than a number, and after them with the same
character, which is no space and ends no line. -/
def Starts (n : Nat) (t t' : Text) : Prop :=
  ∃ k d r r', k ≤ n ∧ d ≠ ' ' ∧ isBreak d = false ∧ t = Text.spaces k ++ d :: r
    ∧ t' = Text.spaces k ++ d :: r'

namespace Cursor

variable {n : Nat} {c c' : Cursor} {q : Char → Bool}

/-- Two cursors before the same lines, below which other lines may follow that begin alike. -/
inductive Above (n : Nat) (c c' : Cursor) : Prop
  | same (column : c.column = c'.column) (rest : c.rest = c'.rest)
  | line {u t t' : Text} (column : c.column = c'.column) (rest : c.rest = u ++ '\n' :: t)
      (rest' : c'.rest = u ++ '\n' :: t') (start : Starts n t t')

/-- Two cursors before the same lines, or before the same spaces in front of the same character. -/
inductive Alike (n : Nat) (c c' : Cursor) : Prop
  | above (above : Above n c c')
  | beside {k : Nat} {d : Char} {r r' : Text} (column : c.column = c'.column)
      (rest : c.rest = Text.spaces k ++ d :: r) (rest' : c'.rest = Text.spaces k ++ d :: r')
      (within : c.column + k ≤ n) (space : d ≠ ' ') (stays : isBreak d = false)

theorem Above.column (h : Above n c c') : c.column = c'.column := by
  cases h with
  | same column => exact column
  | line column => exact column

theorem Alike.column (h : Alike n c c') : c.column = c'.column := by
  cases h with
  | above h => exact h.column
  | beside column => exact column

theorem Above.peek (h : Above n c c') : c.peek = c'.peek := by
  cases h with
  | same _ rest => rw [Cursor.peek, Cursor.peek, rest]
  | @line u _ _ _ rest rest' =>
    rw [Cursor.peek, Cursor.peek, rest, rest']
    cases u <;> rfl

theorem Alike.peek (h : Alike n c c') : c.peek = c'.peek := by
  cases h with
  | above h => exact h.peek
  | @beside k _ _ _ _ rest rest' =>
    rw [Cursor.peek, Cursor.peek, rest, rest']
    cases k <;> rfl

/-- What the column is after a character depends on it and the one after it. -/
theorem column_next (hc : c.column = c'.column) {ch : Char} {r r' : Text} (h : c.rest = ch :: r)
    (h' : c'.rest = ch :: r') (hf : ch = '\r' → r.headD endChar = r'.headD endChar) :
    c.next.column = c'.next.column := by
  have he : endsLine ch (r.headD endChar) = endsLine ch (r'.headD endChar) := by
    by_cases hr : ch = '\r'
    · rw [hf hr]
    · simp [endsLine, hr]
  rw [next, next, h, h']
  dsimp only
  rw [he, hc]
  split
  · rfl
  · split <;> rfl

/-- Past a line feed the cursors are in front of the lines below. -/
theorem Above.next (h : Above n c c') :
    Alike n c.next c'.next ∧ (c.peek ≠ '\n' → Above n c.next c'.next) := by
  cases h with
  | same column rest =>
    have hsame : Above n c.next c'.next := by
      refine .same ?_ (by rw [rest_next, rest_next, rest])
      cases hr : c.rest with
      | nil => rw [Cursor.next, Cursor.next, ← rest, hr, column]
      | cons ch r => exact column_next column hr (rest ▸ hr) fun _ => rfl
    exact ⟨.above hsame, fun _ => hsame⟩
  | @line u t t' column rest rest' start =>
    cases u with
    | nil =>
      obtain ⟨k, d, r, r', hk, hd, hb, rfl, rfl⟩ := start
      have h1 : c.rest = '\n' :: (Text.spaces k ++ d :: r) := rest
      have h2 : c'.rest = '\n' :: (Text.spaces k ++ d :: r') := rest'
      refine ⟨?_, fun hne => absurd (peek_cons h1) hne⟩
      rw [next_feed h1, next_feed h2]
      exact .beside rfl rfl rfl (by simpa using hk) hd hb
    | cons ch u =>
      have hline : Above n c.next c'.next := by
        refine .line (column_next column rest rest' fun _ => ?_) (by rw [rest_next, rest]; rfl)
          (by rw [rest_next, rest']; rfl) start
        cases u <;> rfl
      exact ⟨.above hline, fun _ => hline⟩

theorem Alike.next (h : Alike n c c') (hs : c.peek = ' ') : Alike n c.next c'.next := by
  cases h with
  | above h => exact h.next.1
  | @beside k d r r' column rest rest' within space stays =>
    cases k with
    | zero => exact absurd (hs ▸ (peek_cons rest).symm) space
    | succ k =>
      have hspace : isBreak ' ' = false := by decide
      obtain ⟨h1, -, -, -, h5⟩ := next_char rest hspace
      obtain ⟨h1', -, -, -, h5'⟩ := next_char rest' hspace
      have hcol := h5 (by decide)
      exact .beside (by rw [hcol, h5' (by decide), column]) h1 h1' (by omega) space stays

/-- A character that ends a line is above the lines below. -/
theorem Alike.above_of_break (h : Alike n c c') (hb : isBreak c.peek = true) : Above n c c' := by
  cases h with
  | above h => exact h
  | @beside k d r r' _ rest _ _ _ stays =>
    have hpeek : c.peek = ' ' ∨ c.peek = d := by
      rw [Cursor.peek, rest]
      cases k with
      | zero => exact .inr rfl
      | succ k => exact .inl rfl
    rcases hpeek with he | he
    · rw [he] at hb
      exact absurd hb (by decide)
    · rw [he, stays] at hb
      cases hb

/-- So is a column to the right of all that the lines below begin with. -/
theorem Alike.above_of_column (h : Alike n c c') (hn : n < c.column) : Above n c c' := by
  cases h with
  | above h => exact h
  | beside _ _ _ within => omega

theorem takeBreak_eq (c : Cursor) : c.takeBreak
    = if c.peek = '\r' ∧ c.next.peek = '\n' then (['\n'], c.next.next)
      else if c.peek = '\r' ∨ c.peek = '\n' ∨ c.peek = '\x85' then (['\n'], c.next)
      else if c.peek = '\u2028' ∨ c.peek = '\u2029' then ([c.peek], c.next)
      else ([], c) := by
  rw [takeBreak]
  split
  · next r h =>
    have hnext : c.next.peek = '\n' := by rw [Cursor.peek, rest_next, h]; rfl
    rw [if_pos ⟨peek_cons h, hnext⟩]
    rfl
  · next ch r hno h =>
    have hpair : ¬(c.peek = '\r' ∧ c.next.peek = '\n') := by
      rw [peek_cons h, Cursor.peek, rest_next, h]
      rintro ⟨rfl, hn⟩
      cases r with
      | nil => exact absurd hn (by decide)
      | cons d r => exact hno r rfl (by rw [show d = '\n' from hn])
    rw [if_neg hpair, peek_cons h]
  · next h =>
    rw [peek_nil h, if_neg fun hp => absurd hp.1 (by decide), if_neg (by decide),
      if_neg (by decide)]

theorem Above.takeBreak (h : Above n c c') :
    c.takeBreak.1 = c'.takeBreak.1 ∧ Alike n c.takeBreak.2 c'.takeBreak.2 := by
  obtain ⟨hnext, habove⟩ := h.next
  rw [takeBreak_eq, takeBreak_eq, ← h.peek, ← hnext.peek]
  split
  · next hpair => exact ⟨rfl, (habove (by rw [hpair.1]; decide)).next.1⟩
  · split
    · exact ⟨rfl, hnext⟩
    · split
      · exact ⟨rfl, hnext⟩
      · exact ⟨rfl, .above h⟩

/-- A line break takes at least one character. -/
theorem length_takeBreak (hb : isBreak c.peek = true) :
    c.takeBreak.2.rest.length < c.rest.length := by
  have hne : c.rest ≠ [] := fun he => by
    rw [peek_nil he] at hb
    exact absurd hb (by decide)
  have hlen : c.next.rest.length < c.rest.length := by
    rw [rest_next, List.length_tail]
    have := List.length_pos_of_ne_nil hne
    omega
  rw [takeBreak_eq]
  split
  · rw [rest_next, List.length_tail]
    omega
  · split
    · exact hlen
    · next hno =>
      split
      · exact hlen
      · next hno' =>
        simp only [isBreak, Bool.or_eq_true, decide_eq_true_eq] at hb
        tauto

/-! ## Runs of characters -/

theorem Above.run (h : Above n c c') (hq : q '\n' = false) : c.run q = c'.run q := by
  cases h with
  | same _ rest => rw [Cursor.run, Cursor.run, rest]
  | @line u t t' _ rest rest' =>
    rw [Cursor.run, Cursor.run, rest, rest', List.takeWhile_append, List.takeWhile_append,
      List.takeWhile_cons_of_neg (by simp [hq]), List.takeWhile_cons_of_neg (by simp [hq])]

theorem Alike.run_spaces (h : Alike n c c') : c.run (· = ' ') = c'.run (· = ' ') := by
  cases h with
  | above h => exact h.run (by decide)
  | @beside k d r r' _ rest rest' _ space =>
    have hspaces : ∀ ch ∈ Text.spaces k, decide (ch = ' ') = true := fun ch hc => by
      simpa using List.eq_of_mem_replicate hc
    have hd : ∀ ch ∈ (d :: r).head?, decide (ch = ' ') = false := by simpa using space
    have hd' : ∀ ch ∈ (d :: r').head?, decide (ch = ' ') = false := by simpa using space
    rw [run_word rest hspaces hd, run_word rest' hspaces hd']

theorem run_next {q : Char → Bool} {ch : Char} {w : Text} (h : c.run q = ch :: w) :
    c.peek = ch ∧ q ch = true ∧ c.next.run q = w := by
  rw [Cursor.run] at h
  cases hr : c.rest with
  | nil => rw [hr] at h; cases h
  | cons d r =>
    rw [hr, List.takeWhile_cons] at h
    split at h
    · next hd =>
      obtain ⟨rfl, rfl⟩ := List.cons.inj h
      exact ⟨peek_cons hr, hd, by rw [Cursor.run, rest_next, hr]; rfl⟩
    · cases h

/-- Past characters other than line feeds the cursors are above the lines still. -/
theorem Above.skip (h : Above n c c') (hq : q '\n' = false) : Above n (c.skip q) (c'.skip q) := by
  rw [Cursor.skip, Cursor.skip, ← h.run hq]
  generalize hw : c.run q = w
  induction w generalizing c c' with
  | nil => exact h
  | cons ch w ih =>
    obtain ⟨hpeek, hch, hrun⟩ := run_next hw
    have hne : c.peek ≠ '\n' := by
      rintro he
      rw [← hpeek, he, hq] at hch
      cases hch
    exact ih (h.next.2 hne) hrun

/-- Past spaces the cursors are still alike. -/
theorem Alike.advance (h : Alike n c c') {k : Nat} (hk : k ≤ (c.run (· = ' ')).length) :
    Alike n (c.advance k) (c'.advance k) := by
  induction k generalizing c c' with
  | zero => exact h
  | succ k ih =>
    cases hw : c.run (· = ' ') with
    | nil => rw [hw] at hk; cases hk
    | cons ch w =>
      obtain ⟨hpeek, hch, hrun⟩ := run_next hw
      refine ih (h.next (hpeek.trans (by simpa using hch))) ?_
      rw [hrun]
      rw [hw, List.length_cons] at hk
      omega

end Cursor

namespace Scalar

open Cursor

variable {n : Nat} {c c' : Cursor} {since since' : Mark}

/-! ## Blank lines -/

theorem leadingBreaks_alike {budget budget' : Nat} (width : Nat) (h : Alike n c c')
    (hb : c.rest.length < budget) (hb' : c'.rest.length < budget') :
    (leadingBreaks budget width c).1 = (leadingBreaks budget' width c').1
      ∧ (leadingBreaks budget width c).2.1 = (leadingBreaks budget' width c').2.1
      ∧ Alike n (leadingBreaks budget width c).2.2 (leadingBreaks budget' width c').2.2 := by
  induction budget generalizing budget' width c c' with
  | zero => cases hb
  | succ budget ih =>
    cases budget' with
    | zero => cases hb'
    | succ budget' =>
      rw [leadingBreaks, leadingBreaks, ← h.peek]
      by_cases hs : c.peek = ' '
      · rw [if_pos hs, if_pos hs]
        dsimp only
        rw [(h.next hs).column]
        have hlen : ∀ d : Cursor, d.peek = ' ' → d.next.rest.length + 1 = d.rest.length := by
          intro d hd
          rw [rest_of_peek hd (by decide), List.length_cons]
        exact ih _ (h.next hs) (by have := hlen c hs; omega)
          (by have := hlen c' (h.peek ▸ hs); omega)
      · rw [if_neg hs, if_neg hs]
        by_cases hbreak : isBreak c.peek = true
        · rw [if_pos hbreak, if_pos hbreak]
          obtain ⟨hline, halike⟩ := (h.above_of_break hbreak).takeBreak
          have hl := length_takeBreak hbreak
          have hl' := length_takeBreak (h.peek ▸ hbreak)
          have hb₁ : c'.takeBreak.2.rest.length < budget' := by omega
          obtain ⟨h1, h2, h3⟩ := ih width halike (by omega) hb₁
          dsimp only
          exact ⟨by rw [hline, h1], h2, h3⟩
        · rw [if_neg hbreak, if_neg hbreak]
          exact ⟨rfl, rfl, h⟩

theorem indentTo_alike (h : Alike n c c') (indent : Nat) :
    Alike n (indentTo indent c) (indentTo indent c') := by
  rw [indentTo, indentTo, ← h.column, ← h.run_spaces]
  exact h.advance (Nat.min_le_right _ _)

theorem blankLines_alike {budget budget' : Nat} (indent : Nat) (h : Alike n c c')
    (hb : c.rest.length < budget) (hb' : c'.rest.length < budget') :
    (blankLines indent budget c).1 = (blankLines indent budget' c').1
      ∧ Alike n (blankLines indent budget c).2 (blankLines indent budget' c').2 := by
  induction budget generalizing budget' c c' with
  | zero => cases hb
  | succ budget ih =>
    cases budget' with
    | zero => cases hb'
    | succ budget' =>
      have hi := indentTo_alike h indent
      rw [blankLines, blankLines, ← hi.peek]
      by_cases hbreak : isBreak (indentTo indent c).peek = true
      · rw [if_pos hbreak, if_pos hbreak]
        obtain ⟨hline, halike⟩ := (hi.above_of_break hbreak).takeBreak
        have hl := length_takeBreak hbreak
        have hl' := length_takeBreak (hi.peek ▸ hbreak)
        have hle : ∀ d : Cursor, (indentTo indent d).rest.length ≤ d.rest.length := fun d => by
          rw [indentTo, rest_advance, List.length_drop]
          omega
        have := hle c
        have := hle c'
        have hb₁ : (indentTo indent c').takeBreak.2.rest.length < budget' := by omega
        obtain ⟨h1, h2⟩ := ih halike (by omega) hb₁
        dsimp only
        exact ⟨by rw [hline, h1], h2⟩
      · rw [if_neg hbreak, if_neg hbreak]
        exact ⟨rfl, hi⟩

/-! ## Lines -/

theorem atBlockLine_alike (h : Alike n c c') (indent : Nat) :
    atBlockLine indent c = atBlockLine indent c' := by
  rw [atBlockLine, atBlockLine, h.column, h.peek]

/-- After the rest of a line there is a break or the end. -/
theorem peek_skipLine (c : Cursor) : isBreakOrEnd c.skipLine.peek = true := by
  have hdrop : ((c.rest.takeWhile fun ch => !isBreakOrEnd ch)
      ++ c.rest.dropWhile fun ch => !isBreakOrEnd ch).drop
        (c.rest.takeWhile fun ch => !isBreakOrEnd ch).length
      = c.rest.dropWhile fun ch => !isBreakOrEnd ch := List.drop_left
  rw [List.takeWhile_append_dropWhile] at hdrop
  have hrest : c.skipLine.rest = c.rest.dropWhile fun ch => !isBreakOrEnd ch := by
    rw [skipLine, skip, rest_advance, Cursor.run, hdrop]
  have hhead := List.head?_dropWhile_not (fun ch => !isBreakOrEnd ch) c.rest
  rw [Cursor.peek, hrest]
  cases hr : c.rest.dropWhile fun ch => !isBreakOrEnd ch with
  | nil => decide
  | cons ch r =>
    rw [hr] at hhead
    simpa using hhead

/-- A further line of a block scalar begins after a line break. -/
theorem length_of_atBlockLine (c : Cursor) (indent budget : Nat)
    (h : atBlockLine indent (blankLines indent (budget + 1) c.skipLine.takeBreak.2).2 = true) :
    (blankLines indent (budget + 1) c.skipLine.takeBreak.2).2.rest.length < c.rest.length := by
  have hskip : c.skipLine.rest.length ≤ c.rest.length := (onward_skip c _).length_le
  by_cases hb : isBreak c.skipLine.peek = true
  · have := length_takeBreak hb
    have := (blankLines_onward indent (budget + 1) c.skipLine.takeBreak.2).length_le
    omega
  · have hend : c.skipLine.peek = endChar := by
      have := peek_skipLine c
      simpa [isBreakOrEnd, hb] using this
    have htake : c.skipLine.takeBreak.2 = c.skipLine := by
      rw [takeBreak_eq, hend, if_neg fun hp => absurd hp.1 (by decide), if_neg (by decide),
        if_neg (by decide)]
    have hindent : Scalar.indentTo indent c.skipLine = c.skipLine := by
      have hrun : c.skipLine.run (· = ' ') = [] := by
        cases hw : c.skipLine.run (· = ' ') with
        | nil => rfl
        | cons ch w =>
          obtain ⟨hpeek, hch, -⟩ := run_next hw
          rw [← hpeek, hend] at hch
          exact absurd hch (by decide)
      rw [Scalar.indentTo, hrun, List.length_nil, Nat.min_zero, advance]
    rw [htake, blankLines, hindent, hend, if_neg (by decide)] at h
    simp [atBlockLine, hend] at h

theorem blockLines_alike (isFolded : Bool) {indent budget budget' : Nat} (hn : n < indent)
    (h : Above n c c') (hb : c.rest.length < budget) (hb' : c'.rest.length < budget') :
    (blockLines isFolded indent budget c).1 = (blockLines isFolded indent budget' c').1
      ∧ (blockLines isFolded indent budget c).2.1 = (blockLines isFolded indent budget' c').2.1
      ∧ (blockLines isFolded indent budget c).2.2.1
        = (blockLines isFolded indent budget' c').2.2.1 := by
  induction budget generalizing budget' c c' with
  | zero => cases hb
  | succ budget ih =>
    cases budget' with
    | zero => cases hb'
    | succ budget' =>
      have hline := h.run (q := fun ch => !isBreakOrEnd ch) (by decide)
      obtain ⟨hbreak, hafter⟩ := (h.skip (q := fun ch => !isBreakOrEnd ch) (by decide)).takeBreak
      obtain ⟨hblank, hend⟩ := blankLines_alike indent hafter (Nat.lt_succ_self _)
        (Nat.lt_succ_self _)
      have hless := length_of_atBlockLine c indent c.skipLine.takeBreak.2.rest.length
      have hless' := length_of_atBlockLine c' indent c'.skipLine.takeBreak.2.rest.length
      rw [blockLines, blockLines, ← h.peek]
      rcases htake : c.skipLine.takeBreak with ⟨lineBreak, d⟩
      rcases htake' : c'.skipLine.takeBreak with ⟨lineBreak', d'⟩
      simp only [skipLine] at htake htake' hless hless' ⊢
      simp only [htake, htake'] at hbreak hafter hblank hend hless hless' ⊢
      rcases hbl : blankLines indent (d.rest.length + 1) d with ⟨breaks, e⟩
      rcases hbl' : blankLines indent (d'.rest.length + 1) d' with ⟨breaks', e'⟩
      simp only [hbl, hbl'] at hblank hend hless hless' ⊢
      subst hbreak hblank
      simp only [← hline, ← atBlockLine_alike hend indent, ← hend.peek]
      split
      · next hat =>
        have hcolumn : e.column = indent := by
          simp only [atBlockLine, Bool.and_eq_true, decide_eq_true_eq] at hat
          exact hat.1
        have hlen := hless hat
        have hlen' := hless' (atBlockLine_alike hend indent ▸ hat)
        have hb₁ : e'.rest.length < budget' := by omega
        obtain ⟨h1, h2, h3⟩ := ih (hend.above_of_column (hcolumn ▸ hn)) (by omega) hb₁
        exact ⟨by rw [h1], h2, h3⟩
      · exact ⟨rfl, rfl, rfl⟩

/-! ## Headers -/

/-- What two readers gave: the same, which is good, and cursors above the same lines. -/
structure ReadAlike {α : Type} (good : α → Prop) (n : Nat) (x y : α × Cursor) : Prop where
  value : x.1 = y.1
  good : good x.1
  above : Above n x.2 y.2

/-- An indentation that is given is not zero. -/
def IsPositive (indentation : Option Nat) : Prop := ∀ k ∈ indentation, 1 ≤ k

theorem toNat_sub_zero {ch : Char} (hd : isAsciiDigit ch = true) (hz : ch ≠ '0') :
    1 ≤ ch.toNat - '0'.toNat := by
  have hne : ch.toNat ≠ '0'.toNat := fun he => hz (Char.toNat_inj.1 he)
  simp only [isAsciiDigit, Bool.and_eq_true, decide_eq_true_eq] at hd
  have hle : '0'.toNat ≤ ch.toNat := UInt32.le_iff_toNat_le.1 hd.1
  omega

theorem indentation_alike (h : Above n c c') :
    Together (ReadAlike IsPositive n) (indentation since c) (indentation since' c') := by
  rw [indentation, indentation, ← h.peek]
  split
  · next hdigit =>
    split
    · trivial
    · next hzero =>
      refine ⟨rfl, ?_, h.next.2 fun he => absurd (he ▸ hdigit) (by decide)⟩
      rintro k hk
      obtain rfl := Option.some.inj hk
      exact toNat_sub_zero hdigit hzero
  · exact ⟨rfl, by simp [IsPositive], h⟩

/-- A sign for chomping is no line feed. -/
theorem next_of_chomping? {chomping : Chomping} (h : Above n c c')
    (hs : chomping? c = some chomping) : Above n c.next c'.next := by
  refine h.next.2 fun he => ?_
  rw [chomping?, he, if_neg (by decide), if_neg (by decide)] at hs
  cases hs

theorem chomping?_alike (h : Above n c c') : chomping? c = chomping? c' := by
  rw [chomping?, chomping?, h.peek]

theorem header_alike (h : Above n c c') :
    Together (ReadAlike (fun head => IsPositive head.indentation) n) (header since c)
      (header since' c') := by
  -- The character after the signs decides alike.
  have hend : ∀ (head : Header) (d d' : Cursor), IsPositive head.indentation → Above n d d' →
      Together (ReadAlike (fun head => IsPositive head.indentation) n)
        (if isSpaceBreakOrEnd d.peek then .ok (head, d)
        else (Fault.during .blockScalar since (.expected .blockIndicators d.peek) d.mark).raise)
        (if isSpaceBreakOrEnd d'.peek then .ok (head, d')
        else (Fault.during .blockScalar since' (.expected .blockIndicators d'.peek)
          d'.mark).raise) := by
    intro head d d' hpos hd
    rw [← hd.peek]
    split
    · exact ⟨rfl, hpos, hd⟩
    · trivial
  rw [header, header, ← chomping?_alike h]
  dsimp only
  split
  · next chomping hs =>
    refine (indentation_alike (next_of_chomping? h hs)).bind ?_
    rintro ⟨k, d⟩ ⟨k', d'⟩ ⟨rfl, hpos, hd⟩
    exact hend _ d d' hpos hd
  · refine (indentation_alike h).bind ?_
    rintro ⟨k, d⟩ ⟨k', d'⟩ ⟨rfl, hpos, hd⟩
    dsimp only at hd hpos ⊢
    rw [← chomping?_alike hd]
    split
    · next hs => exact hend _ d.next d'.next hpos (next_of_chomping? hd hs)
    · exact hend _ d d' hpos hd

theorem ignoredLine_alike (activity : Activity) (h : Above n c c') :
    Together (Alike n) (ignoredLine activity since c) (ignoredLine activity since' c') := by
  have hspaces : Above n c.skipSpaces c'.skipSpaces := h.skip (by decide)
  rw [ignoredLine, ignoredLine, ← hspaces.peek]
  have hline : Above n (if c.skipSpaces.peek = '#' then c.skipSpaces.skipLine else c.skipSpaces)
      (if c.skipSpaces.peek = '#' then c'.skipSpaces.skipLine else c'.skipSpaces) := by
    split
    · exact hspaces.skip (by decide)
    · exact hspaces
  rw [← hline.peek]
  by_cases hend : isBreakOrEnd (if c.skipSpaces.peek = '#' then c.skipSpaces.skipLine
      else c.skipSpaces).peek = true
  · rw [if_pos hend, if_pos hend]
    exact hline.takeBreak.2
  · rw [if_neg hend, if_neg hend]
    trivial

/-- The lines of a block scalar after the blank ones before it, if there are any. -/
theorem linesAt_alike (isFolded : Bool) (indent : Nat) (hn : n < indent) (h : Alike n c c')
    (breaks : Text) {x y : Text × Text × Text × Cursor}
    (hx : x = if atBlockLine indent c then
      let (text, last, after, c) := blockLines isFolded indent (c.rest.length + 1) c
      (breaks ++ text, last, after, c) else ([], [], breaks, c))
    (hy : y = if atBlockLine indent c' then
      let (text, last, after, c) := blockLines isFolded indent (c'.rest.length + 1) c'
      (breaks ++ text, last, after, c) else ([], [], breaks, c')) :
    x.1 = y.1 ∧ x.2.1 = y.2.1 ∧ x.2.2.1 = y.2.2.1 := by
  subst hx hy
  rw [← atBlockLine_alike h indent]
  split
  · next hat =>
    have hcolumn : c.column = indent := by
      simp only [atBlockLine, Bool.and_eq_true, decide_eq_true_eq] at hat
      exact hat.1
    obtain ⟨h1, h2, h3⟩ := blockLines_alike isFolded hn
      (h.above_of_column (hcolumn ▸ hn)) (Nat.lt_succ_self _) (Nat.lt_succ_self _)
    rcases hl : blockLines isFolded indent (c.rest.length + 1) c with ⟨text, last, after, d⟩
    rcases hl' : blockLines isFolded indent (c'.rest.length + 1) c' with ⟨text', last', after', d'⟩
    simp only [hl, hl'] at h1 h2 h3
    subst h1 h2 h3
    exact ⟨rfl, rfl, rfl⟩
  · exact ⟨rfl, rfl, rfl⟩

/-- A block scalar whose lines have to be indented more than the lines below is read alike. -/
theorem block_alike (isFolded : Bool) {parent : Nat} (hn : n < parent) (h : Above n c c')
    (hc : c.peek ≠ '\n') :
    Together (fun x y => x.1.kind = y.1.kind) (block isFolded parent c)
      (block isFolded parent c') := by
  rw [block, block]
  refine (header_alike (h.next.2 hc)).bind ?_
  rintro ⟨head, d⟩ ⟨head', d'⟩ ⟨hh, hpos, hd⟩
  obtain rfl : head = head' := hh
  refine (ignoredLine_alike .blockScalar hd).bind ?_
  intro e e' he
  have hleast : n < max parent 1 := by omega
  cases hk : head.indentation with
  | none =>
    obtain ⟨h1, h2, h3⟩ := leadingBreaks_alike 0 he (Nat.lt_succ_self _)
      (Nat.lt_succ_self _)
    rcases hl : leadingBreaks (e.rest.length + 1) 0 e with ⟨breaks, width, f⟩
    rcases hl' : leadingBreaks (e'.rest.length + 1) 0 e' with ⟨breaks', width', f'⟩
    simp only [hl, hl'] at h1 h2 h3
    subst h1 h2
    obtain ⟨g1, g2, g3⟩ :=
      linesAt_alike isFolded (max (max parent 1) width) (by omega) h3 breaks rfl rfl
    simp only [Together] at g1 g2 g3 ⊢
    rw [g1, g2, g3]
  | some k =>
    have hone : 1 ≤ k := hpos k hk
    obtain ⟨h1, h2⟩ := blankLines_alike (max parent 1 + k - 1) he (Nat.lt_succ_self _)
      (Nat.lt_succ_self _)
    rcases hl : blankLines (max parent 1 + k - 1) (e.rest.length + 1) e with ⟨breaks, f⟩
    rcases hl' : blankLines (max parent 1 + k - 1) (e'.rest.length + 1) e' with ⟨breaks', f'⟩
    simp only [hl, hl'] at h1 h2
    subst h1
    obtain ⟨g1, g2, g3⟩ :=
      linesAt_alike isFolded (max parent 1 + k - 1) (by omega) h2 breaks rfl rfl
    simp only [Together, hl, hl'] at g1 g2 g3 ⊢
    rw [g1, g2, g3]

end Scalar

end ModernControls.Yaml
