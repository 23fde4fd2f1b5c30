import ModernControls.Yaml.Cursor

/-!
# A cursor over a known text

Where a cursor stands after a word, after spaces and after a line break that are known to follow
it. Only what the token reader looks at is stated: what is left, the line, the index and the
column. A byte order mark takes no column, so columns are exact for words without one.

Results:
- `advance_word`: after a word on one line the line is the same and the column is no smaller;
- `column_advance`: without byte order marks the column grows by the length of the word;
- `skip_run`: the characters of a class are passed over together;
- `next_feed`: after a line feed a new line begins at column zero.
-/
namespace ModernControls

@[simp] theorem Text.length_spaces (n : Nat) : (Text.spaces n).length = n := by
  simp [Text.spaces]

namespace Yaml

theorem isBreak_of_endsLine {c following : Char} (h : Cursor.endsLine c following = true) :
    isBreak c = true := by
  simp only [Cursor.endsLine, Bool.or_eq_true, Bool.and_eq_true, decide_eq_true_eq] at h
  simp only [isBreak, Bool.or_eq_true, decide_eq_true_eq]
  rcases h with (((h | h) | h) | h) | h <;> simp [h]

namespace Cursor

variable {c : Cursor} {ch : Char} {w r : Text}

theorem advance_add (c : Cursor) (m n : Nat) : c.advance (m + n) = (c.advance m).advance n := by
  induction m generalizing c with
  | zero => rw [Nat.zero_add]; rfl
  | succ m ih => rw [Nat.succ_add, advance, ih]; rfl

theorem peek_cons (h : c.rest = ch :: r) : c.peek = ch := by simp [peek, h]

theorem peek_nil (h : c.rest = []) : c.peek = endChar := by simp [peek, h]

theorem peekAt_one (h : c.rest = ch :: r) : c.peekAt 1 = r.headD endChar := by simp [peekAt, h]

/-- One character that ends no line. -/
theorem next_char (h : c.rest = ch :: r) (hb : isBreak ch = false) :
    c.next.rest = r ∧ c.next.line = c.line ∧ c.next.index = c.index + 1
      ∧ c.column ≤ c.next.column ∧ (ch ≠ '\uFEFF' → c.next.column = c.column + 1) := by
  have he : endsLine ch (r.headD endChar) = false := by
    cases h' : endsLine ch (r.headD endChar) with
    | false => rfl
    | true => rw [isBreak_of_endsLine h'] at hb; cases hb
  rw [next, h]
  simp only [he, Bool.false_eq_true, if_false]
  by_cases hf : ch = '\uFEFF'
  · simp [hf]
  · simp [hf]

theorem next_feed (h : c.rest = '\n' :: r) : c.next = ⟨r, c.index + 1, c.line + 1, 0⟩ := by
  rw [next, h]
  simp [endsLine]

theorem takeBreak_feed (h : c.rest = '\n' :: r) : c.takeBreak = (['\n'], c.next) := by
  rw [takeBreak, h]
  simp

/-- A word on one line. -/
theorem advance_word (h : c.rest = w ++ r) (hb : ∀ ch ∈ w, isBreak ch = false) :
    (c.advance w.length).rest = r ∧ (c.advance w.length).line = c.line
      ∧ (c.advance w.length).index = c.index + w.length
      ∧ c.column ≤ (c.advance w.length).column := by
  induction w generalizing c with
  | nil => exact ⟨by simpa [advance] using h, rfl, rfl, Nat.le_refl _⟩
  | cons ch w ih =>
    obtain ⟨h1, h2, h3, h4, -⟩ := next_char h (hb ch List.mem_cons_self)
    obtain ⟨g1, g2, g3, g4⟩ := ih h1 fun d hd => hb d (List.mem_cons_of_mem _ hd)
    simp only [List.length_cons, advance]
    exact ⟨g1, g2.trans h2, by omega, Nat.le_trans h4 g4⟩

theorem column_advance (h : c.rest = w ++ r) (hb : ∀ ch ∈ w, isBreak ch = false)
    (hf : '\uFEFF' ∉ w) : (c.advance w.length).column = c.column + w.length := by
  induction w generalizing c with
  | nil => rfl
  | cons ch w ih =>
    rw [List.mem_cons, not_or] at hf
    obtain ⟨h1, -, -, -, h5⟩ := next_char h (hb ch List.mem_cons_self)
    have := ih h1 (fun d hd => hb d (List.mem_cons_of_mem _ hd)) hf.2
    simp only [List.length_cons, advance]
    rw [this, h5 (Ne.symm hf.1)]
    omega

variable {p : Char → Bool}

theorem run_word (h : c.rest = w ++ r) (hw : ∀ ch ∈ w, p ch = true)
    (hr : ∀ ch ∈ r.head?, p ch = false) : c.run p = w := by
  have hr' : r.takeWhile p = [] := by
    cases r with
    | nil => rfl
    | cons ch r => simp [hr ch rfl]
  rw [run, h, List.takeWhile_append_of_pos hw, hr', List.append_nil]

theorem skip_run (h : c.rest = w ++ r) (hw : ∀ ch ∈ w, p ch = true)
    (hr : ∀ ch ∈ r.head?, p ch = false) : c.skip p = c.advance w.length := by
  rw [skip, run_word h hw hr]

theorem skip_none (h : ∀ ch ∈ c.rest.head?, p ch = false) : c.skip p = c := by
  rw [skip_run (w := []) rfl (by simp) h]
  rfl

/-! ## Spaces at the start of a line -/

theorem noBreak_spaces (n : Nat) : ∀ ch ∈ Text.spaces n, isBreak ch = false := by
  intro ch h
  rw [List.eq_of_mem_replicate h]
  decide

theorem noMark_spaces (n : Nat) : '\uFEFF' ∉ Text.spaces n := fun h => by
  have := List.eq_of_mem_replicate h
  revert this
  decide

theorem skipSpaces_spaces {n : Nat} (h : c.rest = Text.spaces n ++ r)
    (hr : ∀ ch ∈ r.head?, ch ≠ ' ') : c.skipSpaces = c.advance n := by
  have := skip_run (p := (· = ' ')) h (fun ch hc => by simpa using List.eq_of_mem_replicate hc)
    fun ch hc => by simpa using hr ch hc
  rw [skipSpaces, this, Text.length_spaces]

/-- The cursor after the spaces at its place. -/
theorem advance_spaces {n : Nat} (h : c.rest = Text.spaces n ++ r) :
    (c.advance n).rest = r ∧ (c.advance n).line = c.line
      ∧ (c.advance n).index = c.index + n ∧ (c.advance n).column = c.column + n := by
  obtain ⟨h1, h2, h3, -⟩ := advance_word h (noBreak_spaces n)
  have h4 := column_advance h (noBreak_spaces n) (noMark_spaces n)
  rw [Text.length_spaces] at h1 h2 h3 h4
  exact ⟨h1, h2, h3, h4⟩

end Cursor

end Yaml

end ModernControls
