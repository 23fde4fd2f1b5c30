import ModernControls.Proofs.Yaml.Scanning

/-!
# Token streams of any text

Every step of the reading of tokens stands at or after the place where it began, and fails with a
report only, if the text names no characters and versions that do not exist. So what ends the
tokens of such a text is reported.

Results:
- `Lexer.step_goes`: what one step does;
- `TokenStream.failure_reported`: what ends the tokens of a text.
-/

namespace ModernControls.Yaml

open Cursor

namespace Lexer

/-- A step of a reading goes on in the text, or fails with a report. -/
def Goes (s : Lexer) (x : Reading Lexer) : Prop :=
  Ends Error.IsReported x fun s' => Onward s.cursor s'.cursor

variable {s s' : Lexer}

theorem goes_ok (h : Onward s.cursor s'.cursor) : Goes s (.ok s') := h

theorem Goes.from {t : Lexer} {x : Reading Lexer} (h : Goes t x)
    (hs : Onward s.cursor t.cursor) : Goes s x := Ends.mono h fun _ => hs.trans

theorem Goes.bind {x : Reading Lexer} {next : Lexer → Reading Lexer} (h : Goes s x)
    (hn : ∀ s', Onward s.cursor s'.cursor → Goes s' (next s')) : Goes s (x >>= next) :=
  Ends.bind h fun s' hs => (hn s' hs).from hs

theorem Goes.ite {p : Prop} [Decidable p] {x y : Reading Lexer} (hx : p → Goes s x)
    (hy : Goes s y) : Goes s (if p then x else y) := by
  split
  · next h => exact hx h
  · exact hy

/-- A token and the cursor after it make a step. -/
theorem Goes.read {read : Reading (Token × Cursor)} {next : Token × Cursor → Lexer}
    (h : Moves s.cursor read) (hn : ∀ r, (next r).cursor = r.2) :
    Goes s (read >>= fun r => .ok (next r)) :=
  Ends.bind h fun r hr => goes_ok (hn r ▸ hr)

/-! ## Keys and blocks -/

theorem dropStale_goes (s : Lexer) : Goes s s.dropStale := by
  rw [dropStale]
  split
  · exact trivial
  · exact goes_ok (.refl _)

theorem dropKey_goes (s : Lexer) : Goes s s.dropKey := by
  rw [dropKey]
  split
  · split
    · exact trivial
    · exact goes_ok (.refl _)
  · exact goes_ok (.refl _)

theorem saveKey_goes (s : Lexer) : Goes s s.saveKey := by
  rw [saveKey]
  split
  · exact .bind (dropKey_goes s) fun s' _ => goes_ok (.refl _)
  · exact goes_ok (.refl _)

theorem cursor_unwind (s : Lexer) (column : Int) : (s.unwind column).cursor = s.cursor := by
  rw [unwind]
  split <;> rfl

theorem cursor_indentTo (s : Lexer) (column : Int) : (s.indentTo column).1.cursor = s.cursor := by
  rw [indentTo]
  split <;> rfl

theorem cursor_openBlock (s : Lexer) (kind : TokenKind) :
    (s.openBlock kind).cursor = s.cursor := by
  rw [openBlock]
  dsimp only
  split
  · exact cursor_indentTo s _
  · exact cursor_indentTo s _

theorem cursor_valueOfKey (s : Lexer) (key : PossibleKey) :
    (s.valueOfKey key).cursor = s.cursor := by
  rw [valueOfKey]
  dsimp only
  split
  · rfl
  · split
    · exact cursor_indentTo _ _
    · exact cursor_indentTo _ _

theorem onward_pushHere (s : Lexer) (kind : TokenKind) (length : Nat) :
    Onward s.cursor (s.pushHere kind length).cursor := onward_advance _ _

/-- What follows where a block begins, if the token is allowed where it stands. -/
theorem begun_goes (s : Lexer) (fault : Fault) (kind : TokenKind) {next : Lexer → Reading Lexer}
    (hn : ∀ s', Goes s' (next s')) :
    Goes s (if s.depth ≠ 0 then .ok s >>= next
      else if !s.keyAllowed then fault.raise >>= next else .ok (s.openBlock kind) >>= next) := by
  split
  · exact hn s
  · split
    · exact trivial
    · exact (hn _).from (cursor_openBlock s kind ▸ .refl _)

/-! ## Tokens -/

/-- What stands behind all blocks. -/
theorem outside_goes (s : Lexer) : Goes s (s.unwind (-1)).dropKey :=
  (dropKey_goes _).from (by rw [cursor_unwind]; exact .refl _)

theorem streamEnd_goes (s : Lexer) : Goes s s.streamEnd :=
  .bind (outside_goes s) fun _ _ => goes_ok (.refl _)

theorem directive_goes (hc : s.cursor.peek = '%') (h : Scannable s.cursor.rest) :
    Goes s s.directive := by
  have hdrop : Ends Error.IsReported (s.unwind (-1)).dropKey fun s' => s'.cursor = s.cursor := by
    rw [dropKey, ← cursor_unwind s (-1)]
    split
    · split
      · exact trivial
      · exact rfl
    · exact rfl
  refine Ends.bind hdrop fun s' hs => ?_
  refine Goes.from (t := s') ?_ (hs ▸ .refl _)
  exact .read (Name.directive_moves (hs ▸ hc) (hs ▸ h)) fun _ => rfl

theorem documentIndicator_goes (s : Lexer) (kind : TokenKind) :
    Goes s (s.documentIndicator kind) :=
  .bind (outside_goes s) fun s' _ => goes_ok (onward_pushHere s' kind 3)

theorem flowStart_goes (s : Lexer) (kind : TokenKind) : Goes s (s.flowStart kind) :=
  .bind (saveKey_goes s) fun s' _ => goes_ok (onward_pushHere s' kind 1)

theorem flowEnd_goes (s : Lexer) (kind : TokenKind) : Goes s (s.flowEnd kind) :=
  .bind (dropKey_goes s) fun s' _ => goes_ok (onward_pushHere s' kind 1)

theorem flowEntry_goes (s : Lexer) : Goes s s.flowEntry :=
  .bind (dropKey_goes s) fun s' _ => goes_ok (onward_pushHere s' .flowEntry 1)

theorem blockEntry_goes (s : Lexer) : Goes s s.blockEntry :=
  begun_goes s _ _ fun s₁ =>
    .bind (dropKey_goes s₁) fun s₂ _ => goes_ok (onward_pushHere s₂ .blockEntry 1)

theorem explicitKey_goes (s : Lexer) : Goes s s.explicitKey :=
  begun_goes s _ _ fun s₁ =>
    .bind (dropKey_goes s₁) fun s₂ _ => goes_ok (onward_pushHere s₂ .key 1)

theorem valueAlone_goes (s : Lexer) : Goes s s.valueAlone :=
  begun_goes s _ _ fun s₁ => .bind (dropKey_goes s₁) fun _ _ => goes_ok (.refl _)

theorem value_goes (s : Lexer) : Goes s s.value := by
  rw [value]
  split
  · exact goes_ok (cursor_valueOfKey s _ ▸ onward_pushHere (s.valueOfKey _) .value 1)
  · exact .bind (valueAlone_goes s) fun s' _ => goes_ok (onward_pushHere s' .value 1)

theorem keyPart_goes {read : Cursor → Reading (Token × Cursor)}
    (h : ∀ c, Scannable c.rest → Moves c (read c)) (hs : Scannable s.cursor.rest) :
    Goes s (s.keyPart read) :=
  .bind (saveKey_goes s) fun _ hc => .read (h _ (hs.of_suffix hc)) fun _ => rfl

theorem blockScalar_goes (s : Lexer) (isFolded : Bool) : Goes s (s.blockScalar isFolded) :=
  .bind (dropKey_goes s) fun _ _ => .read (Scalar.block_moves _ _ _) fun _ => rfl

theorem plainScalar_goes (s : Lexer) : Goes s s.plainScalar :=
  .bind (saveKey_goes s) fun _ _ => goes_ok (Scalar.plain_onward _ _ _)

theorem token_goes (h : Scannable s.cursor.rest) : Goes s s.token := by
  rw [token]
  refine .ite (fun hc => directive_goes hc.1 h) ?_
  refine .ite (fun _ => documentIndicator_goes s _) ?_
  refine .ite (fun _ => documentIndicator_goes s _) ?_
  refine .ite (fun _ => flowStart_goes s _) ?_
  refine .ite (fun _ => flowStart_goes s _) ?_
  refine .ite (fun _ => flowEnd_goes s _) ?_
  refine .ite (fun _ => flowEnd_goes s _) ?_
  refine .ite (fun _ => flowEntry_goes s) ?_
  refine .ite (fun _ => blockEntry_goes s) ?_
  refine .ite (fun _ => explicitKey_goes s) ?_
  refine .ite (fun _ => value_goes s) ?_
  refine .ite (fun _ => keyPart_goes (fun c _ => Name.anchor_moves _ c) h) ?_
  refine .ite (fun _ => keyPart_goes (fun c _ => Name.anchor_moves _ c) h) ?_
  refine .ite (fun _ => keyPart_goes (fun c _ => Name.tag_moves c) h) ?_
  refine .ite (fun _ => blockScalar_goes s _) ?_
  refine .ite (fun _ => blockScalar_goes s _) ?_
  refine .ite (fun _ => keyPart_goes (fun c => Scalar.quoted_moves _) h) ?_
  refine .ite (fun _ => keyPart_goes (fun c => Scalar.quoted_moves _) h) ?_
  exact .ite (fun _ => plainScalar_goes s) trivial

/-! ## Steps -/

theorem skipToToken_onward (budget : Nat) (s : Lexer) :
    Onward s.cursor (skipToToken budget s).cursor := by
  induction budget generalizing s with
  | zero => exact .refl _
  | succ budget ih =>
    have hnext : ∀ c, Onward s.cursor c → Onward s.cursor
        (if isBreak c.peek then skipToToken budget
          { s with cursor := c.takeBreak.2, keyAllowed := s.keyAllowed || s.depth = 0 }
        else { s with cursor := c }).cursor := by
      intro c hc
      split
      · exact (hc.trans (onward_takeBreak c)).trans (ih _)
      · exact hc
    rw [skipToToken]
    split
    · exact hnext _ ((onward_skip _ _).trans (onward_skip _ _))
    · exact hnext _ (onward_skip _ _)

theorem onward_skipByteOrderMark (s : Lexer) : Onward s.cursor s.skipByteOrderMark.cursor := by
  rw [skipByteOrderMark]
  split
  · exact onward_next _
  · exact .refl _

/-- What one step does. -/
theorem step_goes (h : Scannable s.cursor.rest) :
    Ends Error.IsReported s.step fun r => Onward s.cursor r.1.cursor := by
  have hskip := (onward_skipByteOrderMark s).trans
    (skipToToken_onward (s.cursor.rest.length + 1) s.skipByteOrderMark)
  rw [step]
  refine Ends.bind (dropStale_goes _) fun s₁ hs₁ => ?_
  have hc₁ : Onward s.cursor (s₁.unwind s₁.column).cursor := by
    rw [cursor_unwind]
    exact hskip.trans hs₁
  generalize s₁.unwind s₁.column = s₂ at hc₁ ⊢
  dsimp only
  split
  · exact Ends.bind (streamEnd_goes s₂) fun _ hs => hc₁.trans hs
  · refine Ends.bind (token_goes (h.of_suffix hc₁)) fun s₃ hs₃ => ?_
    exact Ends.bind (dropStale_goes s₃) fun _ hs => (hc₁.trans hs₃).trans hs

/-- The induction is on the number of steps; each leaves an end of the text before it. -/
theorem run_failure (budget : Nat) (h : Scannable s.cursor.rest) {e : Error}
    (he : (run budget s).failure = some e) : e.IsReported := by
  induction budget generalizing s with
  | zero => cases he
  | succ budget ih =>
    have hstep := step_goes h
    rw [run_succ] at he
    split at he
    · next failure hfail =>
      obtain rfl := Option.some.inj he
      exact hstep.of_error hfail
    · cases he
    · next s' hs => exact ih (h.of_suffix (hstep.of_ok hs)) he

end Lexer

/-- What ends the tokens of a text is reported. -/
theorem TokenStream.failure_reported {text : Text} (h : Scannable text) {e : Error}
    (he : (TokenStream.ofText text).failure = some e) : e.IsReported := by
  rw [TokenStream.ofText] at he
  split at he
  · obtain rfl := Option.some.inj he
    exact trivial
  · exact Lexer.run_failure (s := .start text) _ h he

end ModernControls.Yaml
