import ModernControls.Proofs.Yaml.Resting

/-!
# Steps of the token reader

What the token reader does at the places that occur in a text of block collections: at the dash of
an item, at a key with its colon, at a word that ends a line, and at empty brackets.

Results:
- `Ready.dash_first`, `Ready.dash_next`: the dash of an item;
- `Ready.key_first`, `Ready.key_next`: a key and its colon;
- `Ready.word`: a word up to the end of its line;
- `Ready.brackets`: an empty flow collection.
-/
namespace ModernControls.Yaml.Lexer

variable {s : Lexer} {rest text raw body : Text} {col n : Nat} {al : Bool} {bs o : List Int}
  {b : Int} {ks : List TokenKind}

/-! ## Items -/

theorem token_dash (h : Rests s ('-' :: raw) col true bs ks) (hr : Parts raw) :
    s.token = s.blockEntry := by
  obtain ⟨hsep, hd, -⟩ := hr.separated h.rest
  have hp := Cursor.peek_cons h.rest
  simp [token, hp, hsep, Cursor.atTriple, hd]

theorem blockEntry_eq (h : Rests s ('-' :: raw) col true bs ks) {s₁ : Lexer}
    (ho : s.openBlock .blockSequenceStart = s₁) {bs' : List Int} {ks' : List TokenKind}
    (hr : Rests s₁ ('-' :: raw) col true bs' ks') :
    ∃ s₂, s.blockEntry = .ok s₂ ∧ Rests s₂ raw (col + 1) true bs' (ks' ++ [.blockEntry]) := by
  have hpush := (hr.forget.pushHere (w := ['-']) .blockEntry (by decide) (by decide)).allow true
  refine ⟨_, ?_, hpush⟩
  rw [blockEntry, h.depth, h.allowed, ho]
  simp only [ne_eq, not_true_eq_false, if_false, Bool.not_true, Bool.false_eq_true, bind,
    Except.bind, hr.dropKey]
  rfl

theorem Ready.dash_first (h : Ready s ('-' :: raw) col true (b :: o) ks) (hb : b < col)
    (hr : Parts raw) :
    ∃ s', Reaches s s' ∧ Rests s' raw (col + 1) true (col :: b :: o)
      (ks ++ [.blockSequenceStart] ++ [.blockEntry]) :=
  h.reaches (by omega) ⟨_, _, rfl, by decide⟩ (by simp) fun s₁ h₁ => by
    rw [token_dash h₁ hr]
    exact blockEntry_eq h₁ rfl (h₁.openBlock .blockSequenceStart hb)

theorem Ready.dash_next (h : Ready s ('-' :: raw) col true ((col : Int) :: o) ks)
    (hr : Parts raw) :
    ∃ s', Reaches s s' ∧ Rests s' raw (col + 1) true (col :: o) (ks ++ [.blockEntry]) :=
  h.reaches (by omega) ⟨_, _, rfl, by decide⟩ (by simp) fun s₁ h₁ => by
    rw [token_dash h₁ hr]
    exact blockEntry_eq h₁ (h₁.openBlock_same _) h₁

/-! ## Words -/

theorem saveKey_allowed (h : Rests s rest col true bs ks) :
    s.saveKey
      = .ok { s with keys := [⟨s.depth, s.count, decide (s.indent = s.column), s.mark⟩] } := by
  have hreq : (decide (s.depth = 0) && decide (s.indent = s.column))
      = decide (s.indent = s.column) := by
    rw [h.depth]
    simp
  rw [saveKey, if_pos h.allowed, hreq, h.dropKey]
  rfl

theorem saveKey_not_allowed (h : Rests s rest col false bs ks) : s.saveKey = .ok s := by
  rw [saveKey, h.allowed]
  rfl

/-- How the token reader reads a word at its place: the state with a key saved if one may begin
there, the token, and the cursor after it. -/
def readWord (w : Word) (s : Lexer) : Reading Lexer :=
  match w.style with
  | .plain => s.plainScalar
  | style => s.keyPart (Scalar.quoted style)

theorem token_word {w : Word} (h : Rests s (w.written ++ rest) col al bs ks) (hw : w.Sound)
    (ho : Text.startsWith (w.written ++ rest) ['-', '-', '-'] = false
      ∧ Text.startsWith (w.written ++ rest) ['.', '.', '.'] = false) :
    s.token = s.readWord w := by
  have h1 : s.cursor.atTriple '-' = false :=
    Cursor.atTriple_of_not_startsWith (by rw [h.rest]; exact ho.1) (by decide)
  have h2 : s.cursor.atTriple '.' = false :=
    Cursor.atTriple_of_not_startsWith (by rw [h.rest]; exact ho.2) (by decide)
  cases w with
  | plain t =>
    obtain ⟨c, r, rfl, hi, hf, hs, hl, -⟩ := of_isPlainText hw
    have hp : s.cursor.peek = c := Cursor.peek_cons (r := r ++ rest) h.rest
    have hg : isGapBreakOrEnd c = false := by
      rw [isGapBreakOrEnd_of_isInline hi, decide_eq_false hs]
    -- After a mark that may begin a plain scalar only in places, the scalar goes on.
    have hgo : c = '?' ∨ c = ':' ∨ c = '-' → isGapBreakOrEnd (s.cursor.peekAt 1) = false := by
      intro hc
      have := hl (by rcases hc with rfl | rfl | rfl <;> decide)
      rw [Cursor.peekAt_one (r := r ++ rest) h.rest]
      cases r with
      | nil => simp [Layout.goesOn] at this
      | cons d r =>
        simp only [Layout.goesOn, Bool.and_eq_true, Bool.not_eq_true'] at this
        exact this.1
    simp only [Layout.firstIndicators, List.contains_eq_mem, decide_eq_false_iff_not, List.mem_cons,
      List.not_mem_nil, or_false, not_or] at hf
    have hplain : s.atPlain = true := by
      by_cases hc : c = '?' ∨ c = ':' ∨ c = '-'
      · have := hgo hc
        rcases hc with rfl | rfl | rfl <;> simp [atPlain, hp, this, h.depth]
      · simp only [not_or] at hc
        simp [atPlain, hp, hg, indicators, hf, hc]
    have hdash : ¬(c = '-' ∧ isGapBreakOrEnd (s.cursor.peekAt 1) = true) := fun hc => by
      rw [hgo (.inr (.inr hc.1))] at hc
      exact absurd hc.2 (by decide)
    have hmark : ¬(c = '?' ∧ isGapBreakOrEnd (s.cursor.peekAt 1) = true) := fun hc => by
      rw [hgo (.inl hc.1)] at hc
      exact absurd hc.2 (by decide)
    have hcolon : ¬(c = ':' ∧ isGapBreakOrEnd (s.cursor.peekAt 1) = true) := fun hc => by
      rw [hgo (.inr (.inl hc.1))] at hc
      exact absurd hc.2 (by decide)
    simp [token, hp, h1, h2, hf, hdash, hmark, hcolon, hplain, h.depth, readWord, Word.style]
  | single t =>
    have hp : s.cursor.peek = '\'' := Cursor.peek_cons h.rest
    simp [token, hp, h1, h2, readWord, Word.style]
  | double ps =>
    have hp : s.cursor.peek = '"' := Cursor.peek_cons h.rest
    simp [token, hp, h1, h2, readWord, Word.style]

/-- The state after a word at a place where a key may begin: the word waits for a colon. -/
def afterWord (s : Lexer) (token : Token) (length : Nat) : Lexer :=
  { s with
    cursor := s.cursor.advance length
    tokens := token :: s.tokens
    count := s.count + 1
    keyAllowed := false
    keys := [⟨s.depth, s.count, decide (s.indent = s.column), s.mark⟩] }

theorem indent_eq (h : Rests s rest col al (b :: o) ks) : s.indent = b ∧ s.outer = o := by
  have := h.blocks
  rw [blocks, List.cons.injEq] at this
  exact this

theorem readWord_key {w : Word} (h : Rests s (w.written ++ ':' :: raw) col true (b :: o) ks)
    (hw : w.Sound) (hr : Parts raw) (hb : b ≤ col) :
    ∃ token : Token, s.readWord w = .ok (s.afterWord token w.written.length)
      ∧ token.kind = .scalar w.value w.style := by
  have quoted : w.style ≠ .plain → ∃ token : Token,
      s.keyPart (Scalar.quoted w.style) = .ok (s.afterWord token w.written.length)
        ∧ token.kind = .scalar w.value w.style := fun hs => by
    obtain ⟨token, hq, hk⟩ := Word.quoted_word hw hs h.rest (by simp)
    refine ⟨token, ?_, hk⟩
    simp only [keyPart, saveKey_allowed h, bind, Except.bind, hq]
    rfl
  cases w with
  | plain t =>
    have hi : (s.indent + 1).toNat ≤ s.cursor.column + 1 := by
      rw [(indent_eq h).1, h.column]
      omega
    obtain ⟨token, hp, hk⟩ := Scalar.plain_key hw h.rest hr hi
    have hflow : decide (s.depth ≠ 0) = false := by rw [h.depth]; rfl
    refine ⟨token, ?_, hk⟩
    simp only [readWord, Word.style, plainScalar, saveKey_allowed h, bind, Except.bind, hflow, hp]
    rfl
  | single t => exact quoted (by simp [Word.style])
  | double ps => exact quoted (by simp [Word.style])

theorem dropStale_of_fresh (h : ∀ k ∈ s.keys, s.isStale k = false) : s.dropStale = .ok s := by
  have hn : (s.keys.find? fun key => s.isStale key && key.required) = none := by
    rw [List.find?_eq_none]
    intro k hk
    simp [h k hk]
  have hf : s.keys.filter (!s.isStale ·) = s.keys := by
    rw [List.filter_eq_self]
    intro k hk
    simp [h k hk]
  rw [dropStale, hn]
  simp only [hf]

/-- A word of a line that is not too long is still waiting for its colon after it. -/
theorem dropStale_afterWord {w : Text} {token : Token} (h : s.cursor.rest = w ++ rest)
    (hb : ∀ ch ∈ w, isBreak ch = false) (hl : w.length ≤ keyReach) :
    (s.afterWord token w.length).dropStale = .ok (s.afterWord token w.length) := by
  obtain ⟨-, h2, h3, -⟩ := Cursor.advance_word h hb
  refine dropStale_of_fresh fun k hk => ?_
  rw [List.mem_singleton.1 hk]
  simp only [isStale, afterWord, mark, Cursor.mark, h2, h3, ne_eq, not_true_eq_false, decide_false,
    Bool.false_or, decide_eq_false_iff_not, Nat.not_lt]
  omega

/-- A colon at the cursor, outside of flow collections and where no key is given up. -/
theorem step_colon (h : s.cursor.rest = ':' :: raw) (hr : Parts raw) (hd : s.depth = 0)
    (hk : s.dropStale = .ok s) (hb : s.blocks = b :: o) (hcol : b ≤ s.column) :
    s.step = (do
      let s ← s.value
      let s ← s.dropStale
      .ok (s, false)) := by
  have hpeek : s.cursor.peek = ':' := Cursor.peek_cons h
  obtain ⟨hsep, -, -⟩ := hr.separated h
  have hset : s.settled = .ok s := by
    rw [settled, skipByteOrderMark_eq (by rw [h]; simp),
      skipToToken_spaces _ (show _ = Text.spaces 0 ++ ':' :: raw by rw [h]; rfl)
        (by simp; decide)]
    exact hk
  have hun : s.unwind s.column = s := by
    obtain ⟨hi, ho⟩ := List.cons.inj hb
    rw [unwind, if_neg (by simp [hd]), closing_append _ [] hb (by simp) hcol]
    simp [hi.symm, ho.symm]
  have htoken : s.token = s.value := by
    have hpa : isGapBreakOrEnd (s.cursor.peekAt 1) = true := hsep
    simp [Lexer.token, hpeek, hpa, Cursor.atTriple]
  rw [step_eq, hset]
  simp only [bind, Except.bind, hun, hpeek, show ':' ≠ endChar by decide, if_false, htoken]

/-- A word stands no further to the left than where it began. -/
theorem le_column_afterWord {w : Text} (token : Token)
    (h : Rests s (w ++ rest) col al bs ks) (hb : ∀ ch ∈ w, isBreak ch = false) (hcol : b ≤ col) :
    b ≤ (s.afterWord token w.length).column := by
  obtain ⟨-, -, -, h4⟩ := Cursor.advance_word h.rest hb
  have hcolumn : (s.afterWord token w.length).column = ((s.cursor.advance w.length).column : Int) :=
    rfl
  rw [hcolumn]
  have := h.column
  omega

/-- The colon after a word is looked for where the word ends. -/
theorem step_afterWord {w : Text} {token : Token}
    (h : Rests s (w ++ ':' :: raw) col al (b :: o) ks) (hb : ∀ ch ∈ w, isBreak ch = false)
    (hl : w.length ≤ keyReach) (hr : Parts raw) (hcol : b ≤ col) :
    (s.afterWord token w.length).step = (do
      let s ← (s.afterWord token w.length).value
      let s ← s.dropStale
      .ok (s, false)) :=
  step_colon (Cursor.advance_word h.rest hb).1 hr h.depth (dropStale_afterWord h.rest hb hl)
    h.blocks (le_column_afterWord token h hb hcol)

/-- The key that a word at a place may be. -/
def wordKey (s : Lexer) : PossibleKey := ⟨s.depth, s.count, decide (s.indent = s.column), s.mark⟩

theorem value_afterWord (s : Lexer) (token : Token) (length : Nat) :
    (s.afterWord token length).value
      = .ok (((s.afterWord token length).valueOfKey s.wordKey).pushHere .value 1) := by
  have hf : (s.afterWord token length).keys.find? (·.depth = (s.afterWord token length).depth)
      = some s.wordKey := by
    simp [afterWord, wordKey]
  rw [value, hf]
  rfl

/-- The tokens for a key go before its word. -/
theorem valueOfKey_afterWord {token : Token} {length : Nat} (hd : s.depth = 0) :
    (s.afterWord token length).valueOfKey s.wordKey
      = if s.indent < s.column then
          { s.afterWord token length with
            tokens := token :: ⟨.key, s.mark, s.mark⟩ :: ⟨.blockMappingStart, s.mark, s.mark⟩
              :: s.tokens
            count := s.count + 3
            indent := s.column
            outer := s.indent :: s.outer
            keys := [] }
        else
          { s.afterWord token length with
            tokens := token :: ⟨.key, s.mark, s.mark⟩ :: s.tokens
            count := s.count + 2
            keys := [] } := by
  have h1 : s.count + 1 - s.count = 1 := by omega
  have h2 : s.count + 1 + 1 - s.count = 2 := by omega
  by_cases hlt : s.indent < s.column
  · have hlt' : s.indent < (s.mark.column : Int) := hlt
    rw [if_pos hlt]
    simp [valueOfKey, afterWord, insertAt, indentTo, wordKey, hd, h1, h2, hlt']
    rfl
  · have hlt' : ¬s.indent < (s.mark.column : Int) := hlt
    rw [if_neg hlt]
    simp [valueOfKey, afterWord, insertAt, indentTo, wordKey, hd, h1, hlt']

/-- A colon after a key at the column of a block. -/
theorem value_next {w : Text} (token : Token)
    (h : Rests s (w ++ ':' :: raw) col al ((col : Int) :: o) ks)
    (hb : ∀ ch ∈ w, isBreak ch = false) :
    ∃ s' col', (s.afterWord token w.length).value = .ok s' ∧ col ≤ col'
      ∧ Rests s' raw col' false (col :: o) (ks ++ [.key, token.kind] ++ [.value]) := by
  obtain ⟨h1, -, -, h4⟩ := Cursor.advance_word h.rest hb
  obtain ⟨hi, ho⟩ := indent_eq h
  have hlt : ¬s.indent < s.column := by rw [hi, column, h.column]; omega
  have hkey : Rests ((s.afterWord token w.length).valueOfKey s.wordKey) (':' :: raw)
      (s.cursor.advance w.length).column false (col :: o) (ks ++ [.key, token.kind]) := by
    rw [valueOfKey_afterWord h.depth, if_neg hlt]
    refine ⟨h1, rfl, rfl, h.blocks, ?_, h.depth, ?_, by simp⟩
    · rw [← h.kinds]
      simp [kinds]
    · simp [h.count]
  refine ⟨_, _, value_afterWord s token w.length, ?_,
    hkey.pushHere (w := [':']) .value (by decide) (by decide)⟩
  rw [h.column] at h4
  exact Nat.le_add_right_of_le h4

/-- A colon after a key that begins a block. -/
theorem value_first {w : Text} (token : Token)
    (h : Rests s (w ++ ':' :: raw) col al (b :: o) ks) (hlt : b < col)
    (hb : ∀ ch ∈ w, isBreak ch = false) :
    ∃ s' col', (s.afterWord token w.length).value = .ok s' ∧ col ≤ col'
      ∧ Rests s' raw col' false (col :: b :: o)
        (ks ++ [.blockMappingStart, .key, token.kind] ++ [.value]) := by
  obtain ⟨h1, -, -, h4⟩ := Cursor.advance_word h.rest hb
  obtain ⟨hi, ho⟩ := indent_eq h
  have hcol : s.column = col := by rw [column, h.column]
  have hlt : s.indent < s.column := by rwa [hi, hcol]
  have hkey : Rests ((s.afterWord token w.length).valueOfKey s.wordKey) (':' :: raw)
      (s.cursor.advance w.length).column false (col :: b :: o)
      (ks ++ [.blockMappingStart, .key, token.kind]) := by
    rw [valueOfKey_afterWord h.depth, if_pos hlt]
    refine ⟨h1, rfl, rfl, ?_, ?_, h.depth, ?_, by simp⟩
    · rw [blocks, hcol, hi, ho]
    · rw [← h.kinds]
      simp [kinds]
    · simp [h.count]
  refine ⟨_, _, value_afterWord s token w.length, ?_,
    hkey.pushHere (w := [':']) .value (by decide) (by decide)⟩
  rw [h.column] at h4
  exact Nat.le_add_right_of_le h4

/-- A key with its colon takes two steps. -/
theorem Ready.key {w : Word} {bs' : List Int} {starts : List TokenKind}
    (h : Ready s (w.written ++ ':' :: raw) col true (b :: o) ks) (hb : b ≤ col) (hw : w.Sound)
    (hl : w.written.length ≤ keyReach) (hr : Parts raw)
    (hv : ∀ (s₁ : Lexer) (token : Token), Rests s₁ (w.written ++ ':' :: raw) col true (b :: o) ks →
      ∃ s₂ col', (s₁.afterWord token w.written.length).value = .ok s₂ ∧ col ≤ col'
        ∧ Rests s₂ raw col' false bs' (ks ++ starts ++ [token.kind] ++ [.value])) :
    ∃ s' col', Reaches s s' ∧ col ≤ col'
      ∧ Rests s' raw col' false bs' (ks ++ starts ++ [.scalar w.value w.style] ++ [.value]) := by
  have hnb := Word.not_break hw
  have hopen := Word.opens_key hw raw
  obtain ⟨c, r, hcr, -, -, -, -, hend, -⟩ := Word.head_written hw
  obtain ⟨s₂, ⟨s₁, token, h₁, hk, rfl⟩, hs⟩ := h.step hb
    (P := fun s₂ => ∃ s₁ token, Rests s₁ (w.written ++ ':' :: raw) col true (b :: o) ks
      ∧ token.kind = .scalar w.value w.style ∧ s₂ = s₁.afterWord token w.written.length)
    ⟨c, _, by rw [hcr]; rfl, hend⟩ fun s₁ h₁ => by
      obtain ⟨token, hread, hk⟩ := readWord_key h₁ hw hr hb
      exact ⟨_, (token_word h₁ hw ⟨hopen.start, hopen.finish⟩).trans hread, s₁, token, h₁, hk, rfl⟩
  rw [dropStale_afterWord h₁.rest hnb hl] at hs
  obtain ⟨s₃, col', hval, hcol, h₃⟩ := hv s₁ token h₁
  obtain ⟨s₄, hdrop, h₄⟩ := h₃.dropStale
  have hrest : (s₁.afterWord token w.written.length).cursor.rest = ':' :: raw :=
    (Cursor.advance_word h₁.rest hnb).1
  have hlen := List.length_pos_iff.2 (Word.written_ne_nil hw)
  have htext := h.1
  rw [List.length_append] at htext
  refine ⟨s₄, col', (Reaches.of_step hs ?_).trans (Reaches.of_step ?_ ?_), hcol, by rwa [hk] at h₄⟩
  · rw [hrest]
    omega
  · rw [step_afterWord h₁ hnb hl hr hb, hval]
    simp only [bind, Except.bind, hdrop]
  · rw [hrest, h₄.rest, List.length_cons]
    omega

theorem Ready.key_next {w : Word}
    (h : Ready s (w.written ++ ':' :: raw) col true ((col : Int) :: o) ks) (hw : w.Sound)
    (hl : w.written.length ≤ keyReach) (hr : Parts raw) :
    ∃ s' col', Reaches s s' ∧ col ≤ col' ∧ Rests s' raw col' false (col :: o)
      (ks ++ [.key] ++ [.scalar w.value w.style] ++ [.value]) :=
  h.key (by omega) hw hl hr fun s₁ token h₁ => by
    simpa using value_next token h₁ (Word.not_break hw)

theorem Ready.key_first {w : Word} (h : Ready s (w.written ++ ':' :: raw) col true (b :: o) ks)
    (hb : b < col) (hw : w.Sound) (hl : w.written.length ≤ keyReach) (hr : Parts raw) :
    ∃ s' col', Reaches s s' ∧ col ≤ col' ∧ Rests s' raw col' false (col :: b :: o)
      (ks ++ [.blockMappingStart, .key] ++ [.scalar w.value w.style] ++ [.value]) :=
  h.key (by omega) hw hl hr fun s₁ token h₁ => by
    simpa using value_first token h₁ hb (Word.not_break hw)

/-! ## Values -/

/-- What stands right of the column of a block need not be a key. -/
theorem Rests.saveKey (h : Rests s rest col al (b :: o) ks) (hb : b < col) :
    ∃ s', s.saveKey = .ok s' ∧ Rests s' rest col al (b :: o) ks := by
  cases al with
  | false => exact ⟨s, saveKey_not_allowed h, h⟩
  | true =>
    refine ⟨_, saveKey_allowed h, h.rest, h.column, h.allowed, h.blocks, h.kinds, h.depth, h.count,
      ?_⟩
    intro k hk
    have hne : s.indent ≠ s.column := by
      rw [(indent_eq h).1, Lexer.column, h.column]
      omega
    rw [List.mem_singleton.1 hk]
    exact ⟨by simp [hne], h.depth⟩

/-- A token for a word, after which the cursor stands somewhere on the line or the next one. -/
theorem Rests.push {c : Cursor} {text : Text} {column : Nat} (h : Rests s rest col al bs ks)
    (token : Token) (hc : c.rest = text) (hcol : c.column = column) (al' : Bool) :
    Rests { s.push token with cursor := c, keyAllowed := al' } text column al' bs
      (ks ++ [token.kind]) := by
  refine ⟨hc, hcol, rfl, h.blocks, ?_, h.depth, ?_, h.loose⟩
  · rw [← h.kinds]
    simp [Lexer.push, Lexer.kinds]
  · simp [Lexer.push, h.count]

theorem readWord_quoted {w : Word} (h : Rests s (w.written ++ rest) col al (b :: o) ks)
    (hw : w.Sound) (hs : w.style ≠ .plain) (hb : b < col) (hr : ∀ ch ∈ rest.head?, ch ≠ '\'') :
    ∃ s' col', s.readWord w = .ok s'
      ∧ Rests s' rest col' false (b :: o) (ks ++ [.scalar w.value w.style]) := by
  have hread : s.readWord w = s.keyPart (Scalar.quoted w.style) := by
    cases w with
    | plain t => exact absurd rfl hs
    | single t => rfl
    | double ps => rfl
  obtain ⟨s₁, hsave, h₁⟩ := h.saveKey hb
  obtain ⟨token, hq, hk⟩ := Word.quoted_word hw hs h₁.rest hr
  have hrest := (Cursor.advance_word h₁.rest (Word.not_break hw)).1
  refine ⟨{ s₁.push token with
    cursor := s₁.cursor.advance w.written.length, keyAllowed := false }, _, ?_,
    hk ▸ h₁.push token hrest rfl false⟩
  rw [hread]
  simp only [keyPart, hsave, bind, Except.bind, hq]

/-- A word between quotation marks, whatever else follows it. -/
theorem Ready.quoted {w : Word} (h : Ready s (w.written ++ rest) col al (b :: o) ks) (hw : w.Sound)
    (hs : w.style ≠ .plain) (hb : b < col) (hr : ∀ ch ∈ rest.head?, ch ≠ '\'') :
    ∃ s' col', Reaches s s' ∧ Rests s' rest col' false (b :: o) (ks ++ [.scalar w.value w.style]) := by
  obtain ⟨c, r, hcr, -, -, -, -, hend, -⟩ := Word.head_written hw
  have hopen := Word.opens_quoted hw hs rest
  obtain ⟨s₂, ⟨col', h₂⟩, hstep⟩ := h.step (by omega) ⟨c, _, by rw [hcr]; rfl, hend⟩
    (P := fun s₂ => ∃ col', Rests s₂ rest col' false (b :: o)
      (ks ++ [.scalar w.value w.style])) fun s₁ h₁ => by
    obtain ⟨s₂, col', hread, h₂⟩ := readWord_quoted h₁ hw hs hb hr
    exact ⟨s₂, (token_word h₁ hw ⟨hopen.start, hopen.finish⟩).trans hread, col', h₂⟩
  obtain ⟨s₃, hdrop, h₃⟩ := h₂.dropStale
  have hlen := List.length_pos_iff.2 (Word.written_ne_nil hw)
  have htext := h.1
  rw [List.length_append] at htext
  refine ⟨s₃, col', .of_step (by rw [hstep, hdrop]; rfl) ?_, h₃⟩
  rw [h₃.rest]
  omega

theorem readWord_plain {t : Text}
    (h : Rests s (t ++ '\n' :: (Text.spaces n ++ body)) col al (b :: o) ks)
    (ht : Layout.isPlainText t = true) (hb : b < col) (hn : (n : Int) ≤ b) (ho : Opens body) :
    ∃ s', s.readWord (.plain t) = .ok s'
      ∧ Rests s' body n true (b :: o) (ks ++ [.scalar t .plain]) := by
  obtain ⟨s₁, hsave, h₁⟩ := h.saveKey hb
  have hi := (indent_eq h₁).1
  obtain ⟨token, c', hp, hk, hrest, hcol⟩ := Scalar.plain_line ht h₁.rest ho
    (show (s₁.indent + 1).toNat ≤ s₁.cursor.column + 1 by rw [h₁.column, hi]; omega)
    (by rw [hi]; omega)
  have hflow : decide (s₁.depth ≠ 0) = false := by rw [h₁.depth]; rfl
  refine ⟨{ s₁.push token with cursor := c', keyAllowed := true }, ?_,
    hk ▸ h₁.push token hrest hcol true⟩
  simp only [readWord, Word.style, plainScalar, hsave, bind, Except.bind, hflow, hp]

/-- A word up to the end of its line, before a line that is not indented more than the block. -/
theorem Ready.word {w : Word}
    (h : Ready s (w.written ++ '\n' :: (Text.spaces n ++ body)) col al (b :: o) ks) (hw : w.Sound)
    (hb : b < col) (hn : (n : Int) ≤ b) (ho : Opens body) :
    ∃ s', Reaches s s' ∧ Ready s' body n true (b :: o) (ks ++ [.scalar w.value w.style]) := by
  obtain ⟨c, r, hcr, -, -, -, -, hend, -⟩ := Word.head_written hw
  have hpos : ∃ c r, w.written ++ '\n' :: (Text.spaces n ++ body) = c :: r ∧ c ≠ endChar :=
    ⟨c, _, by rw [hcr]; rfl, hend⟩
  have htoken : ∀ s₁, Rests s₁ (w.written ++ '\n' :: (Text.spaces n ++ body)) col al (b :: o) ks →
      s₁.token = s₁.readWord w := fun s₁ h₁ =>
    token_word h₁ hw ⟨Word.not_startsWith_triple hw (.inl rfl) (by decide) _,
      Word.not_startsWith_triple hw (.inr rfl) (by decide) _⟩
  by_cases hs : w.style = .plain
  · obtain ⟨t, rfl⟩ : ∃ t, w = .plain t := by
      cases w with
      | plain t => exact ⟨t, rfl⟩
      | single t => cases hs
      | double ps => cases hs
    obtain ⟨s', hreach, h'⟩ := h.reaches (r := body) (by omega) hpos
      (by simp only [Word.written, List.length_append, List.length_cons]; omega) fun s₁ h₁ => by
        rw [htoken s₁ h₁]
        exact readWord_plain h₁ hw hb hn ho
    exact ⟨s', hreach, h'.ready ho⟩
  · obtain ⟨s', col', hreach, h'⟩ := h.quoted hw hs hb (by simp)
    exact ⟨s', hreach, h'.ready_feed ho⟩

/-! ## Empty brackets -/

/-- A state inside a flow collection that is not in another one. -/
structure Within (s : Lexer) (rest : Text) (blocks : List Int) (kinds : List TokenKind) : Prop where
  rest : s.cursor.rest = rest
  blocks : s.blocks = blocks
  kinds : s.kinds = kinds
  depth : s.depth = 1
  count : s.count = s.tokens.length
  loose : ∀ k ∈ s.keys, k.required = false ∧ k.depth = 0

theorem Within.dropStale (h : Within s rest bs ks) :
    ∃ s', s.dropStale = .ok s' ∧ Within s' rest bs ks :=
  ⟨_, dropStale_of_optional fun k hk => (h.loose k hk).1, h.rest, h.blocks, h.kinds, h.depth,
    h.count, fun k hk => h.loose k (List.mem_filter.1 hk).1⟩

theorem flowStart_within {c : Char} (kind : TokenKind)
    (h : Rests s (c :: rest) col al (b :: o) ks) (hb : b < col) (hc : isBreak c = false) :
    ∃ s', s.flowStart kind = .ok s' ∧ Within s' rest (b :: o) (ks ++ [kind]) := by
  obtain ⟨s₁, hsave, h₁⟩ := h.saveKey hb
  have hrest := (Cursor.advance_word (w := [c]) h₁.rest (by simpa using hc)).1
  refine ⟨{ s₁.pushHere kind 1 with depth := s₁.depth + 1, keyAllowed := true },
    by simp only [flowStart, hsave, bind, Except.bind], hrest, h₁.blocks, ?_, ?_, ?_, h₁.loose⟩
  · rw [← h₁.kinds]
    simp [pushHere, push, kinds]
  · simp [h₁.depth]
  · simp [pushHere, push, h₁.count]

theorem flowEnd_rests {c : Char} (kind : TokenKind) (h : Within s (c :: rest) bs ks)
    (hc : isBreak c = false) :
    ∃ s' col', s.flowEnd kind = .ok s' ∧ Rests s' rest col' false bs (ks ++ [kind]) := by
  have hkey : s.dropKey = .ok s := by
    have : s.keys.find? (·.depth = s.depth) = none := by
      rw [List.find?_eq_none]
      intro k hk
      simp [(h.loose k hk).2, h.depth]
    rw [dropKey, this]
  have hrest := (Cursor.advance_word (w := [c]) h.rest (by simpa using hc)).1
  refine ⟨{ s.pushHere kind 1 with depth := s.depth - 1, keyAllowed := false }, _,
    by simp only [flowEnd, hkey, bind, Except.bind], hrest, rfl, rfl, h.blocks, ?_, ?_, ?_, h.loose⟩
  · rw [← h.kinds]
    simp [pushHere, push, kinds]
  · simp [h.depth]
  · simp [pushHere, push, h.count]

/-- The step from an opening mark to the closing one after it. -/
theorem Within.step {c : Char} (h : Within s (c :: rest) bs ks) (hc : c = ']' ∨ c = '\x7d') :
    ∃ s', Within s' (c :: rest) bs ks ∧ s.step = (do
      let s ← s'.token
      let s ← s.dropStale
      .ok (s, false)) := by
  have hne : c ≠ ' ' ∧ c ≠ '#' ∧ c ≠ '\uFEFF' ∧ c ≠ endChar ∧ isBreak c = false := by
    rcases hc with rfl | rfl <;> decide
  obtain ⟨s', hs', h'⟩ := h.dropStale
  have hset : s.settled = .ok s' := by
    rw [settled, skipByteOrderMark_eq (by rw [h.rest]; simpa using hne.2.2.1),
      skipToToken_spaces _ (show _ = Text.spaces 0 ++ c :: rest from h.rest)
        (by simpa using ⟨hne.1, hne.2.1, hne.2.2.2.2⟩)]
    exact hs'
  have hun : s'.unwind s'.column = s' := by rw [unwind, if_pos (by simp [h'.depth])]
  have hpeek : s'.cursor.peek ≠ endChar := by rw [Cursor.peek_cons h'.rest]; exact hne.2.2.2.1
  refine ⟨s', h', ?_⟩
  rw [step_eq, hset]
  simp only [bind, Except.bind, hun, hpeek, if_false]

/-- An opening mark and the closing one after it, at the end of a line. -/
theorem Ready.pair {c d : Char} {first last : TokenKind}
    (h : Ready s (c :: d :: '\n' :: (Text.spaces n ++ body)) col al (b :: o) ks) (hb : b < col)
    (ho : Opens body) (hc : c ≠ endChar ∧ isBreak c = false) (hd : d = ']' ∨ d = '\x7d')
    (hfirst : ∀ s : Lexer, s.cursor.peek = c → s.token = s.flowStart first)
    (hlast : ∀ s : Lexer, s.cursor.peek = d → s.token = s.flowEnd last) :
    ∃ s', Reaches s s' ∧ Ready s' body n true (b :: o) (ks ++ [first] ++ [last]) := by
  obtain ⟨s₁, h₁, hstep⟩ := h.step (by omega) ⟨c, _, rfl, hc.1⟩ fun s₁ h₁ => by
    rw [hfirst s₁ (Cursor.peek_cons h₁.rest)]
    exact flowStart_within first h₁ hb hc.2
  obtain ⟨s₂, hdrop, h₂⟩ := h₁.dropStale
  obtain ⟨s₃, h₃, hstep'⟩ := h₂.step hd
  obtain ⟨s₄, col', hend, h₄⟩ := flowEnd_rests last h₃ (by rcases hd with rfl | rfl <;> decide)
  obtain ⟨s₅, hdrop', h₅⟩ := h₄.dropStale
  have htext := h.1
  simp only [List.length_cons] at htext
  refine ⟨s₅, (Reaches.of_step (by rw [hstep, hdrop]; rfl) ?_).trans
    (.of_step (s := s₂) ?_ ?_), h₅.ready_feed ho⟩
  · rw [h₂.rest, List.length_cons, List.length_cons]
    omega
  · rw [hstep', hlast s₃ (Cursor.peek_cons h₃.rest), hend]
    simp only [bind, Except.bind, hdrop']
  · rw [h₂.rest, h₅.rest]
    simp

theorem Ready.brackets (h : Ready s ("[]\n".toList ++ (Text.spaces n ++ body)) col al (b :: o) ks)
    (hb : b < col) (ho : Opens body) :
    ∃ s', Reaches s s' ∧ Ready s' body n true (b :: o)
      (ks ++ [.flowSequenceStart] ++ [.flowSequenceEnd]) :=
  h.pair (c := '[') (d := ']') hb ho (by decide) (.inl rfl)
    (fun s hp => by simp [token, hp, Cursor.atTriple])
    (fun s hp => by simp [token, hp, Cursor.atTriple])

theorem Ready.braces
    (h : Ready s (['\x7b', '\x7d', '\n'] ++ (Text.spaces n ++ body)) col al (b :: o) ks)
    (hb : b < col) (ho : Opens body) :
    ∃ s', Reaches s s' ∧ Ready s' body n true (b :: o)
      (ks ++ [.flowMappingStart] ++ [.flowMappingEnd]) :=
  h.pair (c := '\x7b') (d := '\x7d') hb ho (by decide) (.inr rfl)
    (fun s hp => by simp [token, hp, Cursor.atTriple])
    (fun s hp => by simp [token, hp, Cursor.atTriple])

end ModernControls.Yaml.Lexer
