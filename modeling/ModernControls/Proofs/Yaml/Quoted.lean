import ModernControls.Proofs.Yaml.Cursor
import ModernControls.Yaml.Layout.Scalar
import ModernControls.Yaml.Token.Stream

/-!
# Reading quoted scalars

Between double quotation marks every character stands as a piece of text: itself, a letter after a
backslash, or its code after one. Between single ones each character stands for itself, a quotation
mark twice. A scalar written so on one line is read as the text it was written for, and the cursor
moves past the closing mark.

Results:
- `doubleBody_pieces`: pieces between double quotation marks are read one by one;
- `singleBody_marks`: so are characters between single ones.
-/
namespace ModernControls.Yaml

/-- How a character may be written between double quotation marks. -/
inductive Piece : Text → Char → Prop
  | itself {c : Char} (quote : c ≠ '"') (slash : c ≠ '\\') (tab : c ≠ '\t')
    (stop : isBreakOrEnd c = false) : Piece [c] c
  | letter {l c : Char} (means : Scalar.escaped? l = some c) (one : isBreak l = false) :
    Piece ['\\', l] c
  | code {l c : Char} {digits : Text} (means : Scalar.escaped? l = none)
    (size : Scalar.codeLength? l = some digits.length)
    (hex : ∀ d ∈ digits, Scalar.isHexDigit d = true) (value : natIn? 16 digits = some c.toNat) :
    Piece ('\\' :: l :: digits) c

theorem not_break_of_hex {d : Char} (h : Scalar.isHexDigit d = true) : isBreak d = false := by
  cases hb : isBreak d with
  | false => rfl
  | true =>
    simp only [isBreak, Bool.or_eq_true, decide_eq_true_eq] at hb
    rcases hb with (((rfl | rfl) | rfl) | rfl) | rfl <;> revert h <;> decide

theorem not_break_of_code {l : Char} {n : Nat} (h : Scalar.codeLength? l = some n) :
    isBreak l = false := by
  unfold Scalar.codeLength? at h
  split at h
  all_goals first | decide | cases h

/-- A character that stands for itself on a line outside of double quotation marks. -/
def isInline (c : Char) : Bool := Layout.isOrdinary c && !Layout.isFold c

theorem of_isInline {c : Char} (h : isInline c = true) :
    isBreakOrEnd c = false ∧ c ≠ '\t' ∧ c ≠ '\uFEFF' := by
  simp only [isInline, Bool.and_eq_true, Bool.not_eq_true'] at h
  refine ⟨?_, ?_, ?_⟩
  · cases hb : isBreakOrEnd c with
    | false => rfl
    | true =>
      simp only [isBreakOrEnd, isBreak, Bool.or_eq_true, decide_eq_true_eq] at hb
      rcases hb with ((((rfl | rfl) | rfl) | rfl) | rfl) | rfl <;> revert h <;> decide
  · rintro rfl
    revert h
    decide
  · rintro rfl
    revert h
    decide

theorem isBreak_of_isInline {c : Char} (h : isInline c = true) : isBreak c = false := by
  have hb := (of_isInline h).1
  rw [isBreakOrEnd, Bool.or_eq_false_iff] at hb
  exact hb.1

theorem isGapBreakOrEnd_of_isInline {c : Char} (h : isInline c = true) :
    isGapBreakOrEnd c = decide (c = ' ') := by
  obtain ⟨hb, ht, -⟩ := of_isInline h
  simp [isGapBreakOrEnd, isGap, hb, ht]

namespace Piece

variable {p : Text} {c : Char}

theorem ne_nil (h : Piece p c) : p ≠ [] := by cases h <;> simp

theorem eq_space (h : Piece [' '] c) : c = ' ' := by cases h; rfl

theorem not_break (h : Piece p c) : ∀ d ∈ p, isBreak d = false := by
  intro d hd
  cases h with
  | itself _ _ _ stop =>
    rw [List.mem_singleton.1 hd]
    simp only [isBreakOrEnd, Bool.or_eq_false_iff] at stop
    exact stop.1
  | letter _ one =>
    simp only [List.mem_cons, List.not_mem_nil, or_false] at hd
    rcases hd with rfl | rfl
    · decide
    · exact one
  | code _ size hex _ =>
    simp only [List.mem_cons] at hd
    rcases hd with rfl | rfl | hd
    · decide
    · exact not_break_of_code size
    · exact not_break_of_hex (hex d hd)

/-- A piece that is no space begins with a character that ends a run of spaces. -/
theorem head_of_ne_space (h : Piece p c) (hs : p ≠ [' ']) :
    ∃ d r, p = d :: r ∧ isGapBreakOrEnd d = false := by
  cases h with
  | itself _ _ tab stop =>
    refine ⟨_, _, rfl, ?_⟩
    have hc : c ≠ ' ' := fun h => hs (by rw [h])
    simp [isGapBreakOrEnd, isGap, stop, tab, hc]
  | letter => exact ⟨_, _, rfl, by decide⟩
  | code => exact ⟨_, _, rfl, by decide⟩

end Piece

namespace Scalar

variable {since : Mark} {c : Cursor} {r : Text}

/-- A run of spaces on a line stands for itself. -/
theorem flowGap_spaces {n : Nat} (h : c.rest = Text.spaces n ++ r)
    (hr : ∃ d r', r = d :: r' ∧ isGapBreakOrEnd d = false) :
    flowGap since c = .ok (Text.spaces n, c.advance n) := by
  obtain ⟨d, r', rfl, hd⟩ := hr
  simp only [isGapBreakOrEnd, isBreakOrEnd, Bool.or_eq_false_iff, decide_eq_false_iff_not] at hd
  have hg : ∀ ch ∈ Text.spaces n, isGap ch = true := fun ch hc => by
    rw [List.eq_of_mem_replicate hc]; decide
  have hn : ∀ ch ∈ (d :: r').head?, isGap ch = false := by simpa using hd.1
  have hs : c.skip isGap = c.advance n := by rw [Cursor.skip_run h hg hn, Text.length_spaces]
  have hp : (c.advance n).peek = d := Cursor.peek_cons (Cursor.advance_spaces h).1
  rw [flowGap, Cursor.run_word h hg hn, hs]
  simp only [hp, hd.2.1, hd.2.2, if_false, Bool.false_eq_true]

theorem codePoint_digits {digits : Text} {ch : Char} (h : c.rest = digits ++ r)
    (hex : ∀ d ∈ digits, isHexDigit d = true) (value : natIn? 16 digits = some ch.toNat) :
    codePoint since digits.length c = .ok (ch, c.advance digits.length) := by
  have ht : c.rest.take digits.length = digits := by rw [h, List.take_left]
  have hf : digits.find? (!isHexDigit ·) = none := by
    rw [List.find?_eq_none]
    intro d hd
    simp [hex d hd]
  have hc : ch.toNat ≤ 0x10FFFF := by
    have hv : ch.toNat.isValidChar := ch.valid
    rcases hv with hv | hv
    · omega
    · omega
  rw [codePoint]
  simp only [ht, Nat.sub_self, List.replicate_zero, List.append_nil, hf, value, Option.getD_some]
  rw [if_neg (by omega), if_neg (by omega), Char.ofNat_toNat]

/-- What follows a backslash is read as the character that it was written for. -/
theorem escape_piece {p : Text} {ch : Char} (hp : Piece ('\\' :: p) ch) (h : c.rest = p ++ r) :
    escape since c = .ok ([ch], c.advance p.length) := by
  cases hp with
  | itself _ slash => exact absurd rfl slash
  | letter means =>
    rw [escape, Cursor.peek_cons h]
    simp only [means]
    rfl
  | @code l _ digits means size hex value =>
    have h' : c.rest = l :: (digits ++ r) := h
    have hn : c.next.rest = digits ++ r := by rw [Cursor.rest_next, h']; rfl
    rw [escape, Cursor.peek_cons h']
    simp only [means, size, codePoint_digits hn hex value]
    rfl

/-- The spaces that pieces begin with, and the pieces after them. -/
theorem spaces_of_pieces (ps : List (Text × Char)) (h : ∀ p ∈ ps, Piece p.1 p.2) :
    ∃ n qs, ps = List.replicate n ([' '], ' ') ++ qs ∧ (∀ q ∈ qs.head?, q.1 ≠ [' ']) := by
  induction ps with
  | nil => exact ⟨0, [], rfl, by simp⟩
  | cons p ps ih =>
    obtain ⟨n, qs, rfl, hq⟩ := ih fun q hq => h q (List.mem_cons_of_mem _ hq)
    obtain ⟨w, ch⟩ := p
    by_cases hw : w = [' ']
    · subst hw
      obtain rfl : ch = ' ' := (h _ List.mem_cons_self : Piece [' '] ch).eq_space
      exact ⟨n + 1, qs, rfl, hq⟩
    · exact ⟨0, _, rfl, by simpa using hw⟩

theorem flatMap_replicate_space (n : Nat) :
    (List.replicate n (([' '], ' ') : Text × Char)).flatMap (·.1) = Text.spaces n := by
  induction n with
  | zero => rfl
  | succ n ih => rw [List.replicate_succ, List.flatMap_cons, ih]; rfl

theorem map_replicate_space (n : Nat) :
    (List.replicate n (([' '], ' ') : Text × Char)).map (·.2) = Text.spaces n := by
  simp [Text.spaces]

/-- A run of spaces between double quotation marks. -/
theorem doubleBody_spaces {n budget : Nat} {more : Text} {c' : Cursor}
    (h : c.rest = Text.spaces (n + 1) ++ r) (hr : ∃ d r', r = d :: r' ∧ isGapBreakOrEnd d = false)
    (hb : doubleBody since budget (c.advance (n + 1)) = .ok (more, c')) :
    doubleBody since (budget + 1) c = .ok (Text.spaces (n + 1) ++ more, c') := by
  have hpeek : c.peek = ' ' := Cursor.peek_cons (r := Text.spaces n ++ r) h
  have hgap : isGapBreakOrEnd ' ' = true := by decide
  rw [doubleBody, hpeek]
  simp only [show (' ' : Char) ≠ '"' by decide, show (' ' : Char) ≠ '\\' by decide, if_false, hgap,
    if_true, flowGap_spaces h hr, bind, Except.bind, hb]

/-- A piece that is no space. -/
theorem doubleBody_piece {p : Text} {ch : Char} {budget : Nat} {more : Text} {c' : Cursor}
    (hp : Piece p ch) (hs : p ≠ [' ']) (h : c.rest = p ++ r)
    (hb : doubleBody since budget (c.advance p.length) = .ok (more, c')) :
    doubleBody since (budget + 1) c = .ok (ch :: more, c') := by
  obtain ⟨d, w, rfl, hd⟩ := hp.head_of_ne_space hs
  have hn : c.next.rest = w ++ r := by rw [Cursor.rest_next, h]; rfl
  have hnext : doubleBody since budget (c.next.advance w.length) = .ok (more, c') := hb
  rw [doubleBody, Cursor.peek_cons (r := w ++ r) h]
  by_cases hslash : d = '\\'
  · subst hslash
    simp only [show ('\\' : Char) ≠ '"' by decide, if_false, if_true, escape_piece hp hn, bind,
      Except.bind, hnext]
    rfl
  · obtain ⟨rfl, rfl, hquote⟩ : w = [] ∧ ch = d ∧ d ≠ '"' := by
      cases hp with
      | itself quote => exact ⟨rfl, rfl, quote⟩
      | letter => exact absurd rfl hslash
      | code => exact absurd rfl hslash
    have hnext : doubleBody since budget c.next = .ok (more, c') := hnext
    simp only [hquote, hslash, hd, if_false, Bool.false_eq_true, bind, Except.bind, hnext]

/-- Pieces up to the closing quotation mark. The induction is on the number of pieces, since a run
of spaces is read as a whole. -/
theorem doubleBody_pieces (since : Mark) {ps : List (Text × Char)}
    (h : ∀ p ∈ ps, Piece p.1 p.2) {budget : Nat}
    (hb : ps.length < budget) (hc : c.rest = ps.flatMap (·.1) ++ '"' :: r) :
    doubleBody since budget c
      = .ok (ps.map (·.2), c.advance ((ps.flatMap (·.1)).length + 1)) := by
  induction hl : ps.length using Nat.strongRecOn generalizing ps budget c with
  | ind k ih =>
    subst hl
    obtain ⟨budget, rfl⟩ : ∃ b, budget = b + 1 := ⟨budget - 1, by omega⟩
    obtain ⟨n, qs, rfl, hq⟩ := spaces_of_pieces ps h
    have hqs : ∀ q ∈ qs, Piece q.1 q.2 := fun q hq => h q (List.mem_append_right _ hq)
    have hhead : ∃ d r', qs.flatMap (·.1) ++ '"' :: r = d :: r' ∧ isGapBreakOrEnd d = false := by
      cases qs with
      | nil => exact ⟨_, _, rfl, by decide⟩
      | cons q qs =>
        obtain ⟨d, r', hd, hg⟩ := (hqs q List.mem_cons_self).head_of_ne_space (hq q rfl)
        exact ⟨d, _, by rw [List.flatMap_cons, hd]; rfl, hg⟩
    rw [List.flatMap_append, flatMap_replicate_space, List.append_assoc] at hc
    rw [List.length_append, List.length_replicate] at hb
    rw [List.map_append, map_replicate_space, List.flatMap_append, flatMap_replicate_space,
      List.length_append, Nat.add_assoc, Cursor.advance_add]
    cases n with
    | succ n =>
      have hi := ih qs.length (by simp only [List.length_append, List.length_replicate]; omega) hqs
        (show qs.length < budget by omega) (Cursor.advance_spaces hc).1 rfl
      rw [Text.length_spaces]
      exact doubleBody_spaces hc hhead hi
    | zero =>
      have hc : c.rest = qs.flatMap (·.1) ++ '"' :: r := hc
      cases qs with
      | nil =>
        rw [doubleBody, Cursor.peek_cons (show c.rest = '"' :: r from hc)]
        rfl
      | cons q qs =>
        rw [List.flatMap_cons, List.append_assoc] at hc
        have hr : (c.advance q.1.length).rest = qs.flatMap (·.1) ++ '"' :: r := by
          rw [Cursor.rest_advance, hc, List.drop_left]
        have hi := ih qs.length (by simp) (fun p hp => hqs p (List.mem_cons_of_mem _ hp))
          (show qs.length < budget by simp only [List.length_cons] at hb; omega) hr rfl
        have := doubleBody_piece (hqs q List.mem_cons_self) (hq q rfl) hc hi
        rw [List.flatMap_cons, List.length_append, Nat.add_assoc, Cursor.advance_add]
        exact this

/-! ## Between single quotation marks -/

/-- A character between single quotation marks. -/
def singleChar (c : Char) : Text := if c = '\'' then ['\'', '\''] else [c]

/-- The spaces that a text begins with, and the rest. -/
theorem exists_spaces (t : Text) :
    ∃ n u, t = Text.spaces n ++ u ∧ ∀ c ∈ u.head?, c ≠ ' ' := by
  induction t with
  | nil => exact ⟨0, [], rfl, by simp⟩
  | cons c t ih =>
    obtain ⟨n, u, rfl, hu⟩ := ih
    by_cases hc : c = ' '
    · exact ⟨n + 1, u, by rw [hc]; rfl, hu⟩
    · exact ⟨0, c :: (Text.spaces n ++ u), rfl, by simpa using hc⟩

theorem flatMap_singleChar_spaces (n : Nat) (u : Text) :
    (Text.spaces n ++ u).flatMap singleChar = Text.spaces n ++ u.flatMap singleChar := by
  induction n with
  | zero => rfl
  | succ n ih =>
    have : Text.spaces (n + 1) = ' ' :: Text.spaces n := rfl
    rw [this, List.cons_append, List.flatMap_cons, ih]
    rfl

/-- A run of spaces between single quotation marks. -/
theorem singleBody_spaces {n budget : Nat} {more : Text} {c' : Cursor}
    (h : c.rest = Text.spaces (n + 1) ++ r) (hr : ∃ d r', r = d :: r' ∧ isGapBreakOrEnd d = false)
    (hb : singleBody since budget (c.advance (n + 1)) = .ok (more, c')) :
    singleBody since (budget + 1) c = .ok (Text.spaces (n + 1) ++ more, c') := by
  have hpeek : c.peek = ' ' := Cursor.peek_cons (r := Text.spaces n ++ r) h
  have hgap : isGapBreakOrEnd ' ' = true := by decide
  rw [singleBody, hpeek]
  simp only [show (' ' : Char) ≠ '\'' by decide, if_false, hgap, if_true, flowGap_spaces h hr, bind,
    Except.bind, hb]

/-- A character that is no space. -/
theorem singleBody_char {ch : Char} {budget : Nat} {more : Text} {c' : Cursor}
    (hi : isInline ch = true) (hs : ch ≠ ' ') (h : c.rest = singleChar ch ++ r)
    (hb : singleBody since budget (c.advance (singleChar ch).length) = .ok (more, c')) :
    singleBody since (budget + 1) c = .ok (ch :: more, c') := by
  by_cases hq : ch = '\''
  · subst hq
    have h2 : c.rest = '\'' :: '\'' :: r := h
    have hb : singleBody since budget (c.advance 2) = .ok (more, c') := hb
    rw [singleBody, Cursor.peek_cons h2]
    simp only [if_true, Cursor.peekAt_one h2, List.headD_cons, bind, Except.bind, hb]
  · rw [singleChar, if_neg hq] at h hb
    have hb : singleBody since budget c.next = .ok (more, c') := hb
    have hg : isGapBreakOrEnd ch = false := by
      rw [isGapBreakOrEnd_of_isInline hi, decide_eq_false hs]
    rw [singleBody, Cursor.peek_cons (show c.rest = ch :: r from h)]
    simp only [hq, if_false, hg, Bool.false_eq_true, bind, Except.bind, hb]

/-- A text up to the closing quotation mark, after which no further one follows. -/
theorem singleBody_marks (since : Mark) {t : Text} (h : ∀ ch ∈ t, isInline ch = true) {budget : Nat}
    (hb : t.length < budget) (hc : c.rest = t.flatMap singleChar ++ '\'' :: r)
    (hr : ∀ ch ∈ r.head?, ch ≠ '\'') :
    singleBody since budget c = .ok (t, c.advance ((t.flatMap singleChar).length + 1)) := by
  induction hl : t.length using Nat.strongRecOn generalizing t budget c with
  | ind k ih =>
    subst hl
    obtain ⟨budget, rfl⟩ : ∃ b, budget = b + 1 := ⟨budget - 1, by omega⟩
    obtain ⟨n, u, rfl, hu⟩ := exists_spaces t
    have hui : ∀ ch ∈ u, isInline ch = true := fun ch hc => h ch (List.mem_append_right _ hc)
    have hhead : ∃ d r', u.flatMap singleChar ++ '\'' :: r = d :: r'
        ∧ isGapBreakOrEnd d = false := by
      cases u with
      | nil => exact ⟨_, _, rfl, by decide⟩
      | cons ch u =>
        by_cases hq : ch = '\''
        · exact ⟨'\'', '\'' :: (u.flatMap singleChar ++ '\'' :: r), by subst hq; rfl, by decide⟩
        · refine ⟨ch, u.flatMap singleChar ++ '\'' :: r, by simp [singleChar, hq], ?_⟩
          rw [isGapBreakOrEnd_of_isInline (hui ch List.mem_cons_self), decide_eq_false (hu ch rfl)]
    rw [flatMap_singleChar_spaces, List.append_assoc] at hc
    rw [List.length_append, Text.length_spaces] at hb
    rw [flatMap_singleChar_spaces, List.length_append, Text.length_spaces, Nat.add_assoc,
      Cursor.advance_add]
    cases n with
    | succ n =>
      have hi := ih u.length (by rw [List.length_append, Text.length_spaces]; omega) hui
        (show u.length < budget by omega) (Cursor.advance_spaces hc).1 rfl
      exact singleBody_spaces hc hhead hi
    | zero =>
      have hc : c.rest = u.flatMap singleChar ++ '\'' :: r := hc
      cases u with
      | nil =>
        have hc : c.rest = '\'' :: r := hc
        have hn : r.headD endChar ≠ '\'' := by
          cases r with
          | nil => decide
          | cons d r => exact hr d rfl
        rw [singleBody, Cursor.peek_cons hc]
        simp only [if_true, Cursor.peekAt_one hc, hn, if_false]
        rfl
      | cons ch u =>
        rw [List.flatMap_cons, List.append_assoc] at hc
        have hrest : (c.advance (singleChar ch).length).rest
            = u.flatMap singleChar ++ '\'' :: r := by
          rw [Cursor.rest_advance, hc, List.drop_left]
        have hi := ih u.length (by simp [Text.length_spaces])
          (fun d hd => hui d (List.mem_cons_of_mem _ hd))
          (show u.length < budget by simp only [List.length_cons] at hb; omega) hrest rfl
        have := singleBody_char (hui ch List.mem_cons_self) (hu ch rfl) hc hi
        rw [List.flatMap_cons, List.length_append, Nat.add_assoc, Cursor.advance_add]
        exact this

end Scalar

end ModernControls.Yaml
