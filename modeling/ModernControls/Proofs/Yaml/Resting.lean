import ModernControls.Proofs.Yaml.Word

/-!
# States of the token reader between tokens

Between two tokens of a text of block collections the token reader *rests*: it is outside of flow
collections and no key has to come to its colon. It is *ready* for what it will read next once
blanks are passed over; blocks that end there are counted as ended. Of the tokens only the kinds
are kept track of.

Results:
- `Rests.ready_spaces`, `Rests.ready_feed`: what is read after spaces and after the end of a line;
- `Ready.close`: a block that is indented more than the place ends there;
- `Ready.reaches`: what one token leads to, when it is known where the blocks have ended;
- `Ready.finish`: at the end of the text all blocks end.
-/
namespace ModernControls.Yaml.Lexer

/-- The columns of the open blocks, the innermost first. -/
def blocks (s : Lexer) : List Int := s.indent :: s.outer

/-- The kinds of the tokens so far, in order. -/
def kinds (s : Lexer) : List TokenKind := s.tokens.reverse.map (·.kind)

/-- A state between two tokens outside of flow collections. -/
structure Rests (s : Lexer) (rest : Text) (column : Nat) (allowed : Bool) (blocks : List Int)
    (kinds : List TokenKind) : Prop where
  rest : s.cursor.rest = rest
  column : s.cursor.column = column
  allowed : s.keyAllowed = allowed
  blocks : s.blocks = blocks
  kinds : s.kinds = kinds
  depth : s.depth = 0
  count : s.count = s.tokens.length
  loose : ∀ k ∈ s.keys, k.required = false ∧ k.depth = 0

/-- The state in which the next token is looked for. -/
def settled (s : Lexer) : Reading Lexer :=
  (skipToToken (s.cursor.rest.length + 1) s.skipByteOrderMark).dropStale

/-- A state that goes on with a text at a column once blanks are passed over. The blocks that are
indented more are not listed any more, and their ends are counted among the tokens. -/
def Ready (s : Lexer) (text : Text) (column : Nat) (allowed : Bool) (blocks : List Int)
    (kinds : List TokenKind) : Prop :=
  text.length ≤ s.cursor.rest.length ∧
    ∃ s' closed before, s.settled = .ok s' ∧ Rests s' text column allowed (closed ++ blocks) before
      ∧ (∀ b ∈ closed, (column : Int) < b)
      ∧ kinds = before ++ List.replicate closed.length .blockEnd

/-- Some steps lead from one state to another, each past a character at least. -/
def Reaches (s s' : Lexer) : Prop :=
  ∃ n, n + s'.cursor.rest.length ≤ s.cursor.rest.length
    ∧ ∀ budget, run (budget + n) s = run budget s'

theorem Reaches.refl (s : Lexer) : Reaches s s := ⟨0, by omega, fun _ => rfl⟩

theorem Reaches.trans {s₁ s₂ s₃ : Lexer} (h : Reaches s₁ s₂) (h' : Reaches s₂ s₃) :
    Reaches s₁ s₃ := by
  obtain ⟨n, hn, hr⟩ := h
  obtain ⟨m, hm, hr'⟩ := h'
  refine ⟨m + n, by omega, fun budget => ?_⟩
  rw [← Nat.add_assoc, hr, hr']

theorem run_of_step {s s' : Lexer} (h : s.step = .ok (s', false)) (budget : Nat) :
    run (budget + 1) s = run budget s' := by
  rw [run_succ, h]

theorem run_of_end {s s' : Lexer} (h : s.step = .ok (s', true)) (budget : Nat) :
    run (budget + 1) s = ⟨s'.tokens.reverse, none⟩ := by
  rw [run_succ, h]

theorem Reaches.of_step {s s' : Lexer} (h : s.step = .ok (s', false))
    (hlt : s'.cursor.rest.length < s.cursor.rest.length) : Reaches s s' :=
  ⟨1, by omega, run_of_step h⟩

theorem step_eq (s : Lexer) : s.step = (do
    let s ← s.settled
    let s := s.unwind s.column
    if s.cursor.peek = endChar then do
      let s ← s.streamEnd
      .ok (s, true)
    else do
      let s ← s.token
      let s ← s.dropStale
      .ok (s, false)) := rfl

variable {s : Lexer} {rest text raw body : Text} {col n : Nat} {al : Bool} {bs o : List Int}
  {b : Int} {ks : List TokenKind}

/-! ## States that rest -/

theorem dropStale_of_optional (h : ∀ k ∈ s.keys, k.required = false) :
    s.dropStale = .ok { s with keys := s.keys.filter (!s.isStale ·) } := by
  have hn : (s.keys.find? fun key => s.isStale key && key.required) = none := by
    rw [List.find?_eq_none]
    intro k hk
    simp [h k hk]
  rw [Lexer.dropStale, hn]

namespace Rests

theorem dropStale (h : Rests s rest col al bs ks) :
    ∃ s', s.dropStale = .ok s' ∧ Rests s' rest col al bs ks :=
  ⟨_, dropStale_of_optional fun k hk => (h.loose k hk).1, h.rest, h.column, h.allowed, h.blocks,
    h.kinds, h.depth, h.count, fun k hk => h.loose k (List.mem_filter.1 hk).1⟩

theorem dropKey (h : Rests s rest col al bs ks) : s.dropKey = .ok { s with keys := [] } := by
  rw [Lexer.dropKey]
  cases hk : s.keys with
  | nil =>
    have hs : { s with keys := [] } = s := by rw [← hk]
    rw [List.find?_nil, hs]
  | cons k keys =>
    have hall : ∀ k' ∈ k :: keys, k'.required = false ∧ k'.depth = s.depth := fun k' hk' => by
      rw [h.depth]
      exact h.loose k' (hk ▸ hk')
    rw [List.find?_cons_of_pos (by simpa using (hall k List.mem_cons_self).2)]
    have hf : (k :: keys).filter (fun key => decide (key.depth ≠ s.depth)) = [] := by
      rw [List.filter_eq_nil_iff]
      intro k' hk'
      simp [(hall k' hk').2]
    simp only [(hall k List.mem_cons_self).1, Bool.false_eq_true, if_false, hf]

/-- Without keys a state still rests. -/
theorem forget (h : Rests s rest col al bs ks) :
    Rests { s with keys := [] } rest col al bs ks :=
  ⟨h.rest, h.column, h.allowed, h.blocks, h.kinds, h.depth, h.count, by simp⟩

theorem allow (h : Rests s rest col al bs ks) (al' : Bool) :
    Rests { s with keyAllowed := al' } rest col al' bs ks :=
  ⟨h.rest, h.column, rfl, h.blocks, h.kinds, h.depth, h.count, h.loose⟩

/-- A token of some characters that are no byte order marks. -/
theorem pushHere {w : Text} (h : Rests s (w ++ rest) col al bs ks) (kind : TokenKind)
    (hb : ∀ ch ∈ w, isBreak ch = false) (hf : '\uFEFF' ∉ w) :
    Rests (s.pushHere kind w.length) rest (col + w.length) al bs (ks ++ [kind]) := by
  obtain ⟨h1, -, -, -⟩ := Cursor.advance_word h.rest hb
  have h2 := Cursor.column_advance h.rest hb hf
  rw [h.column] at h2
  refine ⟨h1, h2, h.allowed, h.blocks, ?_, h.depth, ?_, h.loose⟩
  · rw [← h.kinds]
    simp [Lexer.pushHere, Lexer.push, Lexer.kinds]
  · simp [Lexer.pushHere, Lexer.push, h.count]

/-- A block at the column of the state begins. -/
theorem openBlock (h : Rests s rest col al (b :: o) ks) (kind : TokenKind) (hb : b < col) :
    Rests (s.openBlock kind) rest col al (col :: b :: o) (ks ++ [kind]) := by
  have hblocks := h.blocks
  rw [Lexer.blocks, List.cons.injEq] at hblocks
  have hcol : s.column = col := by rw [Lexer.column, h.column]
  have hlt : s.indent < s.column := by rw [hblocks.1, hcol]; exact hb
  rw [Lexer.openBlock, indentTo, if_pos hlt]
  refine ⟨h.rest, h.column, h.allowed, ?_, ?_, h.depth, ?_, h.loose⟩
  · simp [Lexer.pushEmpty, Lexer.push, Lexer.blocks, hcol, hblocks]
  · rw [← h.kinds]
    simp [Lexer.pushEmpty, Lexer.push, Lexer.kinds]
  · simp [Lexer.pushEmpty, Lexer.push, h.count]

theorem openBlock_same (h : Rests s rest col al ((col : Int) :: o) ks) (kind : TokenKind) :
    s.openBlock kind = s := by
  have hblocks := h.blocks
  rw [Lexer.blocks, List.cons.injEq] at hblocks
  have hcol : s.column = col := by rw [Lexer.column, h.column]
  have hge : ¬s.indent < s.column := by rw [hblocks.1, hcol]; omega
  rw [Lexer.openBlock, indentTo, if_neg hge]
  rfl

end Rests

/-- Blocks that are indented more than a column end there. -/
theorem closing_append {i : Int} {outer : List Int} (column : Int) (closed : List Int)
    (h : i :: outer = closed ++ b :: o) (hc : ∀ x ∈ closed, column < x) (hb : b ≤ column) :
    closing column i outer = (closed.length, b, o) := by
  induction closed generalizing i outer with
  | nil =>
    obtain ⟨rfl, rfl⟩ := List.cons.inj h
    cases outer with
    | nil => rfl
    | cons p outer => rw [closing, if_neg (by omega)]; rfl
  | cons x closed ih =>
    obtain ⟨rfl, hout⟩ := List.cons.inj h
    have hi : column < i := hc i List.mem_cons_self
    have hc' : ∀ x ∈ closed, column < x := fun x hx => hc x (List.mem_cons_of_mem _ hx)
    obtain ⟨p, outer, rfl⟩ : ∃ p outer', outer = p :: outer' :=
      List.exists_cons_of_ne_nil (by rw [hout]; simp)
    rw [closing, if_pos hi, ih hout hc']
    rfl

theorem Rests.unwind {closed : List Int} (column : Int)
    (h : Rests s rest col al (closed ++ b :: o) ks) (hc : ∀ x ∈ closed, column < x)
    (hb : b ≤ column) :
    Rests (s.unwind column) rest col al (b :: o)
      (ks ++ List.replicate closed.length .blockEnd) := by
  have hcl := closing_append column closed h.blocks hc hb
  rw [Lexer.unwind, if_neg (by simp [h.depth])]
  simp only [hcl]
  refine ⟨h.rest, h.column, h.allowed, rfl, ?_, h.depth, ?_, h.loose⟩
  · rw [← h.kinds]
    simp [Lexer.kinds]
  · simp [h.count, Nat.add_comm]

/-! ## What a state is ready for -/

theorem skipByteOrderMark_eq (h : ∀ c ∈ s.cursor.rest.head?, c ≠ '\uFEFF') :
    s.skipByteOrderMark = s := by
  have : s.cursor.peek ≠ '\uFEFF' := by
    cases hr : s.cursor.rest with
    | nil => rw [Cursor.peek_nil hr]; decide
    | cons c r =>
      rw [Cursor.peek_cons hr]
      exact h c (by rw [hr]; rfl)
  rw [skipByteOrderMark, if_neg (by simp [this])]

theorem skipToToken_spaces (budget : Nat) (h : s.cursor.rest = Text.spaces n ++ body)
    (hb : ∀ c ∈ body.head?, c ≠ ' ' ∧ c ≠ '#' ∧ isBreak c = false) :
    skipToToken (budget + 1) s = { s with cursor := s.cursor.advance n } := by
  have hsk := Cursor.skipSpaces_spaces h fun c hc => (hb c hc).1
  have hr := (Cursor.advance_spaces h).1
  have hp : (s.cursor.advance n).peek ≠ '#' ∧ isBreak (s.cursor.advance n).peek = false := by
    cases body with
    | nil => rw [Cursor.peek_nil hr]; decide
    | cons c r =>
      rw [Cursor.peek_cons hr]
      exact (hb c rfl).2
  rw [skipToToken]
  simp only [hsk, hp.1, hp.2, if_false, Bool.false_eq_true]

theorem skipToToken_feed (budget : Nat) (h : s.cursor.rest = '\n' :: (Text.spaces n ++ body))
    (hd : s.depth = 0) (hb : ∀ c ∈ body.head?, c ≠ ' ' ∧ c ≠ '#' ∧ isBreak c = false) :
    skipToToken (budget + 2) s
      = { s with cursor := s.cursor.next.advance n, keyAllowed := true } := by
  have hsk : s.cursor.skipSpaces = s.cursor := Cursor.skip_none (by rw [h]; simp)
  have hbr : isBreak '\n' = true := by decide
  have hn : s.cursor.next.rest = Text.spaces n ++ body := by rw [Cursor.rest_next, h]; rfl
  rw [skipToToken]
  simp only [hsk, Cursor.peek_cons h, show ('\n' : Char) ≠ '#' by decide, if_false, hbr, if_true,
    Cursor.takeBreak_feed h, hd, decide_true, Bool.or_true]
  rw [skipToToken_spaces budget hn hb]

theorem Rests.ready_spaces (h : Rests s (Text.spaces n ++ body) col al bs ks)
    (hb : ∀ c ∈ body.head?, c ≠ ' ' ∧ c ≠ '#' ∧ c ≠ '\uFEFF' ∧ isBreak c = false) :
    Ready s body (col + n) al bs ks := by
  have hm : ∀ c ∈ s.cursor.rest.head?, c ≠ '\uFEFF' := by
    rw [h.rest]
    cases n with
    | zero => exact fun c hc => (hb c hc).2.2.1
    | succ n => simp [Text.spaces, List.replicate_succ]
  obtain ⟨h1, -, -, h4⟩ := Cursor.advance_spaces h.rest
  rw [h.column] at h4
  have hr : Rests { s with cursor := s.cursor.advance n } body (col + n) al bs ks :=
    ⟨h1, h4, h.allowed, h.blocks, h.kinds, h.depth, h.count, h.loose⟩
  obtain ⟨s', hs', hr'⟩ := hr.dropStale
  refine ⟨by rw [h.rest]; simp, s', [], ks, ?_, hr', by simp, by simp⟩
  rw [settled, skipByteOrderMark_eq hm,
    skipToToken_spaces _ h.rest fun c hc => ⟨(hb c hc).1, (hb c hc).2.1, (hb c hc).2.2.2⟩]
  exact hs'

theorem Rests.ready (h : Rests s body col al bs ks) (hb : Opens body) :
    Ready s body col al bs ks :=
  h.ready_spaces (n := 0) hb.head

theorem Rests.ready_feed (h : Rests s ('\n' :: (Text.spaces n ++ body)) col al bs ks)
    (hb : Opens body) : Ready s body n true bs ks := by
  have hn : s.cursor.next.rest = Text.spaces n ++ body := by rw [Cursor.rest_next, h.rest]; rfl
  obtain ⟨h1, -, -, h4⟩ := Cursor.advance_spaces hn
  rw [Cursor.next_feed h.rest, Nat.zero_add] at h4
  have hr : Rests { s with cursor := s.cursor.next.advance n, keyAllowed := true } body n true
      bs ks :=
    ⟨h1, by rw [Cursor.next_feed h.rest]; exact h4, rfl, h.blocks, h.kinds, h.depth, h.count,
      h.loose⟩
  obtain ⟨s', hs', hr'⟩ := hr.dropStale
  obtain ⟨m, hm⟩ : ∃ m, s.cursor.rest.length + 1 = m + 2 :=
    ⟨(Text.spaces n ++ body).length, by rw [h.rest]; rfl⟩
  refine ⟨by rw [h.rest]; simp; omega, s', [], ks, ?_, hr', by simp, by simp⟩
  rw [settled, skipByteOrderMark_eq (by rw [h.rest]; simp), hm, skipToToken_feed _ h.rest h.depth
    fun c hc => ⟨(hb.head c hc).1, (hb.head c hc).2.1, (hb.head c hc).2.2.2⟩]
  exact hs'

/-- A block ends where less is indented. -/
theorem Ready.close (h : Ready s text col al (b :: bs) ks) (hb : (col : Int) < b) :
    Ready s text col al bs (ks ++ [.blockEnd]) := by
  obtain ⟨hl, s', closed, before, hs, hr, hc, rfl⟩ := h
  refine ⟨hl, s', closed ++ [b], before, hs, by simpa using hr, ?_, ?_⟩
  · intro x hx
    rcases List.mem_append.1 hx with hx | hx
    · exact hc x hx
    · rwa [List.mem_singleton.1 hx]
  · rw [List.length_append, List.append_assoc, List.length_singleton, List.replicate_succ']

/-- A step that makes one token: it is enough to know what the token is where the blocks have
ended. -/
theorem Ready.step {P : Lexer → Prop} (h : Ready s text col al (b :: o) ks) (hb : b ≤ col)
    (hp : ∃ c r, text = c :: r ∧ c ≠ endChar)
    (ht : ∀ s₁, Rests s₁ text col al (b :: o) ks → ∃ s₂, s₁.token = .ok s₂ ∧ P s₂) :
    ∃ s₂, P s₂ ∧ s.step = (do let s₃ ← s₂.dropStale; .ok (s₃, false)) := by
  obtain ⟨-, s', closed, before, hs, hr, hc, rfl⟩ := h
  obtain ⟨c, r, rfl, hne⟩ := hp
  have hcol : s'.column = col := by rw [Lexer.column, hr.column]
  have hu := hr.unwind s'.column (by rwa [hcol]) (by rwa [hcol])
  obtain ⟨s₂, ht, hP⟩ := ht _ hu
  refine ⟨s₂, hP, ?_⟩
  have hpeek : (s'.unwind s'.column).cursor.peek ≠ endChar := by
    rw [Cursor.peek_cons hu.rest]
    exact hne
  rw [step_eq, hs]
  simp only [bind, Except.bind, hpeek, if_false, ht]

/-- A step after which the state rests again. -/
theorem Ready.reaches {r : Text} {col' : Nat} {al' : Bool} {bs' : List Int}
    {ks' : List TokenKind} (h : Ready s text col al (b :: o) ks) (hb : b ≤ col)
    (hp : ∃ c r, text = c :: r ∧ c ≠ endChar) (hlt : r.length < text.length)
    (ht : ∀ s₁, Rests s₁ text col al (b :: o) ks →
      ∃ s₂, s₁.token = .ok s₂ ∧ Rests s₂ r col' al' bs' ks') :
    ∃ s', Reaches s s' ∧ Rests s' r col' al' bs' ks' := by
  obtain ⟨s₂, hr, hs⟩ := h.step hb hp ht
  obtain ⟨s₃, hd, hr₃⟩ := hr.dropStale
  refine ⟨s₃, .of_step (by rw [hs, hd]; rfl) ?_, hr₃⟩
  have := h.1
  rw [hr₃.rest]
  omega

/-! ## The start and the end of a text -/

theorem rests_start (text : Text) : Rests (.start text) text 0 true [-1] [.streamStart] :=
  ⟨rfl, rfl, rfl, rfl, rfl, rfl, rfl, by simp [Lexer.start]⟩

theorem streamEnd_kinds {opened : List Int} (h : Rests s rest col al (opened ++ [-1]) ks)
    (ho : ∀ x ∈ opened, -1 < x) :
    ∃ s', s.streamEnd = .ok s'
      ∧ s'.kinds = ks ++ List.replicate opened.length .blockEnd ++ [.streamEnd] := by
  have hu := h.unwind (-1) ho (Int.le_refl _)
  refine ⟨{ ({ s.unwind (-1) with keys := [] } : Lexer).pushEmpty .streamEnd
    (s.unwind (-1)).mark with keyAllowed := false, keys := [] }, ?_, ?_⟩
  · rw [streamEnd, hu.dropKey]
    rfl
  · rw [← hu.kinds]
    simp [pushEmpty, push, kinds]

/-- At the end of the text all blocks end. -/
theorem Ready.finish (opened : List Int) (h : Ready s [] col al (opened ++ [-1]) ks)
    (ho : ∀ x ∈ opened, -1 < x ∧ x ≤ col) :
    ∃ tokens, (∀ budget, run (budget + 1) s = ⟨tokens, none⟩)
      ∧ tokens.map (·.kind)
        = ks ++ List.replicate opened.length .blockEnd ++ [.streamEnd] := by
  obtain ⟨-, s', closed, before, hs, hr, hc, rfl⟩ := h
  have hcol : s'.column = col := by rw [Lexer.column, hr.column]
  obtain ⟨b, o, hbo⟩ : ∃ b o, opened ++ [-1] = b :: o := List.exists_cons_of_ne_nil (by simp)
  have hb : b ≤ s'.column := by
    have : b ∈ opened ++ [-1] := by rw [hbo]; exact List.mem_cons_self
    rw [hcol]
    rcases List.mem_append.1 this with hx | hx
    · exact (ho b hx).2
    · rw [List.mem_singleton.1 hx]; omega
  rw [hbo] at hr
  have hu := hr.unwind s'.column (by rwa [hcol]) hb
  rw [← hbo] at hu
  obtain ⟨s'', hend, hk⟩ := streamEnd_kinds hu fun x hx => (ho x hx).1
  refine ⟨s''.tokens.reverse, run_of_end ?_, hk⟩
  rw [step_eq, hs]
  simp only [bind, Except.bind, Cursor.peek_nil hu.rest, if_true, hend]

end ModernControls.Yaml.Lexer
