import Mathlib.Data.List.TakeWhile
import ModernControls.Proofs.Decimal.Written
import ModernControls.Proofs.Yaml.Cursor
import ModernControls.Proofs.Yaml.Steps
import ModernControls.Yaml.Token.Stream

/-!
# Scanning any text

What the readers of tokens do with a text of any kind: a cursor only goes on, so it always stands
before an end of the text, and a reader that fails makes a report. The two exceptions are values
that are named and do not exist, a character beyond the last one and a version of more digits than
a number may have.
-/

namespace ModernControls.Yaml

/-- A text without more digits in a row than a number may have. -/
def HasShortRuns (text : Text) : Prop :=
  ∀ rest, rest <:+ text → (rest.takeWhile isAsciiDigit).length ≤ mostDigits

theorem HasShortRuns.of_suffix {text rest : Text} (h : HasShortRuns text) (hr : rest <:+ text) :
    HasShortRuns rest := fun r hs => h r (hs.trans hr)

instance (text : Text) : Decidable (HasShortRuns text) :=
  decidable_of_iff (∀ rest ∈ text.tails, (rest.takeWhile isAsciiDigit).length ≤ mostDigits)
    (by simp [HasShortRuns])

/-- Whether a text that begins with a long escape names a character there. -/
def namesCharacter : Text → Bool
  | '\\' :: 'U' :: digits => (natIn? 16 (digits.take 8)).getD 0 ≤ 0x10FFFF
  | _ => true

/-- A text in which escapes name characters, and which has no long numbers if it declares a
version. -/
structure Scannable (text : Text) : Prop where
  escapes : ∀ rest, rest <:+ text → namesCharacter rest = true
  versions : "%YAML".toList <:+: text → HasShortRuns text

theorem Scannable.of_suffix {text rest : Text} (h : Scannable text) (hr : rest <:+ text) :
    Scannable rest where
  escapes r hs := h.escapes r (hs.trans hr)
  versions hv := (h.versions (hv.trans hr.isInfix)).of_suffix hr

instance (text : Text) : Decidable (Scannable text) :=
  decidable_of_iff ((∀ rest ∈ text.tails, namesCharacter rest = true) ∧
      ("%YAML".toList <:+: text → HasShortRuns text))
    ⟨fun h => ⟨fun rest hr => h.1 rest ((List.mem_tails _ _).2 hr), h.2⟩,
      fun h => ⟨fun rest hr => h.escapes rest ((List.mem_tails _ _).1 hr), h.versions⟩⟩

/-! ## Cursors -/

namespace Cursor

/-- Whether a cursor is where another is or further on. -/
def Onward (c c' : Cursor) : Prop := c'.rest <:+ c.rest

variable {c c' c'' : Cursor}

theorem Onward.refl (c : Cursor) : Onward c c := List.suffix_refl _

theorem Onward.trans (h : Onward c c') (h' : Onward c' c'') : Onward c c'' :=
  List.IsSuffix.trans h' h

theorem onward_next (c : Cursor) : Onward c c.next := by
  rw [Onward, rest_next]
  exact List.tail_suffix _

theorem onward_advance (c : Cursor) (n : Nat) : Onward c (c.advance n) := by
  rw [Onward, rest_advance]
  exact List.drop_suffix _ _

theorem onward_skip (c : Cursor) (p : Char → Bool) : Onward c (c.skip p) := onward_advance c _

theorem onward_takeBreak (c : Cursor) : Onward c c.takeBreak.2 := by
  rw [takeBreak]
  split
  · exact onward_advance c 2
  · split
    · exact onward_next c
    · split
      · exact onward_next c
      · exact .refl c
  · exact .refl c

theorem rest_of_peek {ch : Char} (h : c.peek = ch) (hne : ch ≠ endChar) :
    c.rest = ch :: c.next.rest := by
  rw [rest_next]
  cases hr : c.rest with
  | nil => exact absurd (h.symm.trans (peek_nil hr)) hne
  | cons d r => rw [← h, peek_cons hr]; rfl

end Cursor

open Cursor

/-- A reader at a cursor goes on from there, or fails with a report. -/
def Moves {α : Type} (c : Cursor) (read : Reading (α × Cursor)) : Prop :=
  Ends Error.IsReported read fun r => Onward c r.2

variable {α β : Type} {c c' : Cursor}

theorem Moves.from {d : Cursor} {read : Reading (α × Cursor)} (h : Moves d read)
    (hc : Onward c d) : Moves c read := Ends.mono h fun _ => hc.trans

theorem Moves.bind {read : Reading (α × Cursor)} {next : α × Cursor → Reading (β × Cursor)}
    (h : Moves c read) (hn : ∀ a c', Onward c c' → Moves c' (next (a, c'))) :
    Moves c (read >>= next) :=
  Ends.bind h fun r hr => (hn r.1 r.2 hr).from hr

theorem moves_raise (fault : Fault) : Moves c (fault.raise : Reading (α × Cursor)) := trivial

theorem moves_ok {a : α} (h : Onward c c') : Moves c (.ok (a, c')) := h

namespace Scalar

/-! ## Quoted scalars -/

theorem flowBreaks_moves (since : Mark) (budget : Nat) (c : Cursor) :
    Moves c (flowBreaks since budget c) := by
  induction budget generalizing c with
  | zero => exact moves_ok (.refl c)
  | succ budget ih =>
    rw [flowBreaks]
    split
    · exact moves_raise _
    · dsimp only
      split
      · refine Moves.from (d := (c.skip isGap).takeBreak.2) ?_
          ((onward_skip c _).trans (onward_takeBreak _))
        exact .bind (ih _) fun _ _ _ => moves_ok (.refl _)
      · exact moves_ok (onward_skip c _)

theorem flowGap_moves (since : Mark) (c : Cursor) : Moves c (flowGap since c) := by
  rw [flowGap]
  dsimp only
  split
  · exact moves_raise _
  · split
    · refine Moves.from (d := (c.skip isGap).takeBreak.2) ?_
        ((onward_skip c _).trans (onward_takeBreak _))
      refine .bind (flowBreaks_moves _ _ _) fun more c' _ => ?_
      dsimp only
      split
      · exact moves_ok (.refl _)
      · split <;> exact moves_ok (.refl _)
    · exact moves_ok (onward_skip c _)

/-- A code after a backslash and its letter is the code of a character. -/
theorem codePoint_moves (since : Mark) {length : Nat} {c : Cursor}
    (h : (natIn? 16 (c.rest.take length)).getD 0 ≤ 0x10FFFF) :
    Moves c (codePoint since length c) := by
  rw [codePoint]
  dsimp only
  split
  · exact moves_raise _
  · rw [if_neg (by omega), if_neg (by omega)]
    exact moves_ok (onward_advance c _)

theorem natIn?_take_le {length : Nat} (hl : length ≤ 4) (text : Text) :
    (natIn? 16 (text.take length)).getD 0 ≤ 0x10FFFF := by
  cases hn : natIn? 16 (text.take length) with
  | none => exact Nat.zero_le _
  | some n =>
    have hlt : n < 16 ^ (text.take length).length := natIn?_lt hn
    have hle : 16 ^ (text.take length).length ≤ 16 ^ 4 :=
      Nat.pow_le_pow_right (by decide) ((List.length_take_le _ _).trans hl)
    simp only [Option.getD_some]
    omega

theorem of_codeLength? {ch : Char} {length : Nat} (h : codeLength? ch = some length) :
    length ≤ 4 ∨ ch = 'U' ∧ length = 8 := by
  rw [codeLength?.eq_def] at h
  split at h
  · exact .inl (by cases h; decide)
  · exact .inl (by cases h; decide)
  · exact .inr ⟨rfl, (Option.some.inj h).symm⟩
  · cases h

/-- What a backslash stands before. -/
theorem escape_moves (since : Mark) {c : Cursor} (h : Scannable ('\\' :: c.rest)) :
    Moves c (escape since c) := by
  rw [escape]
  split
  · exact moves_ok (onward_next c)
  · split
    · next length hlength =>
      refine Moves.from (d := c.next) ?_ (onward_next c)
      refine .bind (codePoint_moves since ?_) fun _ _ _ => moves_ok (.refl _)
      rcases of_codeLength? hlength with hl | ⟨hU, rfl⟩
      · exact natIn?_take_le hl _
      · exact of_decide_eq_true (h.escapes ('\\' :: 'U' :: c.next.rest)
          (by rw [← rest_of_peek hU (by decide)]))
    · split
      · exact (flowBreaks_moves _ _ _).from (onward_takeBreak c)
      · exact moves_raise _

theorem doubleBody_moves (since : Mark) (budget : Nat) {c : Cursor} (h : Scannable c.rest) :
    Moves c (doubleBody since budget c) := by
  induction budget generalizing c with
  | zero => exact moves_ok (.refl c)
  | succ budget ih =>
    rw [doubleBody]
    dsimp only
    split
    · exact moves_ok (onward_next c)
    · split
      · next hc =>
        refine Moves.from (d := c.next) ?_ (onward_next c)
        refine .bind (escape_moves since (rest_of_peek hc (by decide) ▸ h)) fun _ c' hc' => ?_
        exact .bind (ih (h.of_suffix ((onward_next c).trans hc'))) fun _ _ _ => moves_ok (.refl _)
      · split
        · exact .bind (flowGap_moves since c) fun _ c' hc =>
            .bind (ih (h.of_suffix hc)) fun _ _ _ => moves_ok (.refl _)
        · refine Moves.from (d := c.next) ?_ (onward_next c)
          exact .bind (ih (h.of_suffix (onward_next c))) fun _ _ _ => moves_ok (.refl _)

theorem singleBody_moves (since : Mark) (budget : Nat) (c : Cursor) :
    Moves c (singleBody since budget c) := by
  induction budget generalizing c with
  | zero => exact moves_ok (.refl c)
  | succ budget ih =>
    rw [singleBody]
    dsimp only
    split
    · split
      · refine Moves.from (d := c.advance 2) ?_ (onward_advance c 2)
        exact .bind (ih _) fun _ _ _ => moves_ok (.refl _)
      · exact moves_ok (onward_next c)
    · split
      · exact .bind (flowGap_moves since c) fun _ c' _ =>
          .bind (ih _) fun _ _ _ => moves_ok (.refl _)
      · refine Moves.from (d := c.next) ?_ (onward_next c)
        exact .bind (ih _) fun _ _ _ => moves_ok (.refl _)

theorem quoted_moves (style : ScalarStyle) {c : Cursor} (h : Scannable c.rest) :
    Moves c (quoted style c) := by
  rw [quoted]
  refine Moves.from (d := c.next) ?_ (onward_next c)
  refine .bind ?_ fun _ _ _ => moves_ok (.refl _)
  split
  · exact doubleBody_moves _ _ (h.of_suffix (onward_next c))
  · exact singleBody_moves _ _ _

/-! ## Plain scalars -/

theorem plainBreaks_onward (budget : Nat) (c : Cursor) : Onward c (plainBreaks budget c).2 := by
  induction budget generalizing c with
  | zero => exact .refl c
  | succ budget ih =>
    rw [plainBreaks]
    split
    · exact (onward_next c).trans (ih _)
    · split
      · have hbreak := onward_takeBreak c
        dsimp only
        split
        · exact hbreak
        · exact hbreak.trans (ih _)
      · exact .refl c

theorem plainGap_onward (c : Cursor) : Onward c (plainGap c).2.2 := by
  rw [plainGap]
  have hspaces : Onward c c.skipSpaces := onward_skip c _
  dsimp only
  split
  · have hbreak := hspaces.trans (onward_takeBreak _)
    split
    · exact hbreak
    · have hmore := hbreak.trans (plainBreaks_onward (c.skipSpaces.takeBreak.2.rest.length + 1) _)
      split
      · next heq => 
        rw [heq] at hmore
        exact hmore
      · next heq =>
        rw [heq] at hmore
        split
        · exact hmore
        · split <;> exact hmore
  · exact hspaces

theorem plainParts_onward (inFlow : Bool) (indent budget : Nat) (gap : Text) (s : PlainState) :
    Onward s.cursor (plainParts inFlow indent budget gap s).cursor := by
  induction budget generalizing gap s with
  | zero => exact .refl _
  | succ budget ih =>
    rw [plainParts]
    split
    · exact .refl _
    · dsimp only
      split
      · exact .refl _
      · have hgap := (onward_advance s.cursor (plainRun inFlow s.cursor.rest).length).trans
          (plainGap_onward _)
        split
        · exact hgap
        · exact hgap.trans (ih _ _)

theorem plain_onward (inFlow : Bool) (indent : Nat) (c : Cursor) :
    Onward c (plain inFlow indent c).2.2 := plainParts_onward inFlow indent _ _ _

/-! ## Block scalars -/

theorem indentation_moves (since : Mark) (c : Cursor) : Moves c (indentation since c) := by
  rw [indentation]
  split
  · split
    · exact moves_raise _
    · exact moves_ok (onward_next c)
  · exact moves_ok (.refl c)

theorem header_moves (since : Mark) (c : Cursor) : Moves c (header since c) := by
  have hend : ∀ (head : Header) (c : Cursor), Moves c
      (if isSpaceBreakOrEnd c.peek then .ok (head, c)
      else (Fault.during .blockScalar since (.expected .blockIndicators c.peek) c.mark).raise) := by
    intro head c
    split
    · exact moves_ok (.refl c)
    · exact moves_raise _
  rw [header]
  dsimp only
  split
  · refine Moves.from (d := c.next) ?_ (onward_next c)
    exact .bind (indentation_moves _ _) fun _ c' _ => hend _ c'
  · refine .bind (indentation_moves _ _) fun _ c' _ => ?_
    dsimp only
    split
    · exact (hend _ c'.next).from (onward_next c')
    · exact hend _ c'

theorem ignoredLine_moves (activity : Activity) (since : Mark) (c : Cursor) :
    Ends Error.IsReported (ignoredLine activity since c) (Onward c) := by
  have hend : ∀ c', Onward c c' → Ends Error.IsReported
      (if isBreakOrEnd c'.peek then .ok c'.takeBreak.2
      else (Fault.during activity since (.expected .commentOrBreak c'.peek) c'.mark).raise)
      (Onward c) := by
    intro c' hc
    split
    · exact hc.trans (onward_takeBreak c')
    · exact trivial
  rw [ignoredLine]
  refine hend _ ?_
  split
  · exact (onward_skip c _).trans (onward_skip _ _)
  · exact onward_skip c _

theorem leadingBreaks_onward (budget width : Nat) (c : Cursor) :
    Onward c (leadingBreaks budget width c).2.2 := by
  induction budget generalizing width c with
  | zero => exact .refl c
  | succ budget ih =>
    rw [leadingBreaks]
    split
    · exact (onward_next c).trans (ih _ _)
    · split
      · exact (onward_takeBreak c).trans (ih _ _)
      · exact .refl c

theorem blankLines_onward (indent budget : Nat) (c : Cursor) :
    Onward c (blankLines indent budget c).2 := by
  induction budget generalizing c with
  | zero => exact .refl c
  | succ budget ih =>
    have hindent : Onward c (indentTo indent c) := onward_advance c _
    rw [blankLines]
    dsimp only
    split
    · exact (hindent.trans (onward_takeBreak _)).trans (ih _)
    · exact hindent

theorem blockLines_onward (isFolded : Bool) (indent budget : Nat) (c : Cursor) :
    Onward c (blockLines isFolded indent budget c).2.2.2 := by
  induction budget generalizing c with
  | zero => exact .refl c
  | succ budget ih =>
    have hblank := ((onward_skip c fun ch => !isBreakOrEnd ch).trans (onward_takeBreak _)).trans
      (blankLines_onward indent (c.skipLine.takeBreak.2.rest.length + 1) _)
    rw [blockLines]
    dsimp only
    split
    · exact hblank.trans (ih _)
    · exact hblank

theorem block_moves (isFolded : Bool) (parent : Nat) (c : Cursor) :
    Moves c (block isFolded parent c) := by
  rw [block]
  refine Moves.from (d := c.next) ?_ (onward_next c)
  refine .bind (header_moves _ _) fun head c₁ _ => ?_
  refine Ends.bind (ignoredLine_moves _ _ _) fun c₂ hc => Moves.from ?_ hc
  cases head.indentation with
  | none =>
    have hlead := leadingBreaks_onward (c₂.rest.length + 1) 0 c₂
    rcases hl : leadingBreaks (c₂.rest.length + 1) 0 c₂ with ⟨breaks, width, c₃⟩
    rw [hl] at hlead
    refine Moves.from (d := c₃) ?_ hlead
    have hlines := blockLines_onward isFolded (max (max parent 1) width) (c₃.rest.length + 1) c₃
    dsimp only
    generalize blockLines isFolded _ _ c₃ = lines at hlines ⊢
    split
    · exact moves_ok hlines
    · exact moves_ok (.refl _)
  | some n =>
    have hblank := blankLines_onward (max parent 1 + n - 1) (c₂.rest.length + 1) c₂
    dsimp only
    rcases hb : blankLines (max parent 1 + n - 1) (c₂.rest.length + 1) c₂ with ⟨breaks, c₃⟩
    rw [hb] at hblank
    refine Moves.from (d := c₃) ?_ hblank
    have hlines := blockLines_onward isFolded (max parent 1 + n - 1) (c₃.rest.length + 1) c₃
    dsimp only
    generalize blockLines isFolded _ _ c₃ = lines at hlines ⊢
    split
    · exact moves_ok hlines
    · exact moves_ok (.refl _)

end Scalar

namespace Name

/-! ## Names -/

theorem anchor_moves (isAlias : Bool) (c : Cursor) : Moves c (anchor isAlias c) := by
  rw [anchor]
  dsimp only
  split
  · exact trivial
  · split
    · exact moves_ok ((onward_next c).trans (onward_advance _ _))
    · exact trivial

theorem escapedBytes_moves (activity : Activity) (since : Mark) (budget : Nat) (c : Cursor) :
    Moves c (escapedBytes activity since budget c) := by
  induction budget generalizing c with
  | zero => exact moves_ok (.refl c)
  | succ budget ih =>
    rw [escapedBytes]
    split
    · dsimp only
      split
      · exact moves_raise _
      · refine Moves.from (d := c.next.advance 2) ?_ ((onward_next c).trans (onward_advance _ 2))
        exact .bind (ih _) fun _ _ _ => moves_ok (.refl _)
    · exact moves_ok (.refl c)

theorem escapes_moves (activity : Activity) (since : Mark) (c : Cursor) :
    Moves c (escapes activity since c) := by
  rw [escapes]
  refine .bind (escapedBytes_moves _ _ _ c) fun bytes c' _ => ?_
  dsimp only
  split
  · exact moves_ok (.refl _)
  · exact moves_raise _

theorem uriParts_moves (activity : Activity) (since : Mark) (budget : Nat) (c : Cursor) :
    Moves c (uriParts activity since budget c) := by
  induction budget generalizing c with
  | zero => exact moves_ok (.refl c)
  | succ budget ih =>
    rw [uriParts]
    split
    · exact .bind (escapes_moves _ _ c) fun _ c' _ =>
        .bind (ih c') fun _ _ _ => moves_ok (.refl _)
    · split
      · refine Moves.from (d := c.next) ?_ (onward_next c)
        exact .bind (ih _) fun _ _ _ => moves_ok (.refl _)
      · exact moves_ok (.refl c)

theorem uri_moves (inDirective : Bool) (since : Mark) (c : Cursor) :
    Moves c (uri inDirective since c) := by
  rw [uri]
  split
  · exact uriParts_moves _ _ _ c
  · exact trivial

theorem handle_moves (inDirective : Bool) (since : Mark) (c : Cursor) :
    Moves c (handle inDirective since c) := by
  rw [handle]
  dsimp only
  split
  · exact trivial
  · split
    · exact moves_ok (onward_next c)
    · split
      · exact moves_ok (((onward_next c).trans (onward_advance _ _)).trans (onward_next _))
      · exact trivial

theorem tag_moves (c : Cursor) : Moves c (tag c) := by
  have hend : ∀ (kind : TokenKind) (c' : Cursor), Moves c'
      (if isSpaceBreakOrEnd c'.peek then .ok ((⟨kind, c.mark, c'.mark⟩ : Token), c')
      else (Fault.during .tag c.mark (.expected .space c'.peek) c'.mark).raise) := by
    intro kind c'
    split
    · exact moves_ok (.refl c')
    · exact moves_raise _
  rw [tag]
  dsimp only
  split
  · refine Moves.from (d := c.advance 2) ?_ (onward_advance c 2)
    refine .bind (uri_moves _ _ _) fun suffix c₁ _ => ?_
    dsimp only
    split
    · exact (hend _ c₁.next).from (onward_next c₁)
    · exact trivial
  · split
    · exact (hend _ c.next).from (onward_next c)
    · split
      · exact .bind (handle_moves _ _ c) fun _ c₁ _ =>
          .bind (uri_moves _ _ c₁) fun _ c₂ _ => hend _ c₂
      · refine Moves.from (d := c.next) ?_ (onward_next c)
        exact .bind (uri_moves _ _ _) fun _ c₁ _ => hend _ c₁

/-! ## Directives -/

theorem versionNumber_moves (since : Mark) {c : Cursor} (h : HasShortRuns c.rest) :
    Moves c (versionNumber since c) := by
  rw [versionNumber]
  split
  · exact trivial
  · next hne =>
    have hd : ∀ d ∈ c.run isAsciiDigit, isAsciiDigit d = true := fun d => List.mem_takeWhile_imp
    have hne : c.run isAsciiDigit ≠ [] := fun he => hne (by rw [he]; rfl)
    obtain ⟨n, hn⟩ := exists_digitsFrom hd 0
    have hread : natIn? 10 (c.run isAsciiDigit) = some n := (natIn?_eq hne).trans hn
    rw [integer?_digits hne hd (h _ (List.suffix_refl _)), hread]
    exact moves_ok (onward_advance c _)

theorem version_moves (since : Mark) {c : Cursor} (h : HasShortRuns c.rest) :
    Moves c (version since c) := by
  have hspaces : Onward c c.skipSpaces := onward_skip c _
  rw [version]
  refine Moves.from (d := c.skipSpaces) ?_ hspaces
  refine .bind (versionNumber_moves since (h.of_suffix hspaces)) fun major c₁ hc => ?_
  dsimp only
  split
  · exact trivial
  · refine Moves.from (d := c₁.next) ?_ (onward_next c₁)
    have hc₁ : Onward c c₁.next := (hspaces.trans hc).trans (onward_next c₁)
    refine .bind (versionNumber_moves since (h.of_suffix hc₁)) fun minor c₂ _ => ?_
    dsimp only
    split
    · exact moves_ok (.refl c₂)
    · exact trivial

theorem tagDirective_moves (since : Mark) (c : Cursor) : Moves c (tagDirective since c) := by
  rw [tagDirective]
  refine Moves.from (d := c.skipSpaces) ?_ (onward_skip c _)
  refine .bind (handle_moves _ _ _) fun name c₁ _ => ?_
  dsimp only
  split
  · exact trivial
  · refine Moves.from (d := c₁.skipSpaces) ?_ (onward_skip c₁ _)
    refine .bind (uri_moves _ _ _) fun start c₂ _ => ?_
    dsimp only
    split
    · exact moves_ok (.refl c₂)
    · exact trivial

theorem directive_moves {c : Cursor} (hc : c.peek = '%') (h : Scannable c.rest) :
    Moves c (directive c) := by
  have hend : ∀ r : Directive × Cursor, Moves r.2 (Scalar.ignoredLine .directive c.mark
      (if r.1 = .other then r.2.skipLine else r.2) >>= fun c' =>
        .ok ((⟨.directive r.1, c.mark, r.2.mark⟩ : Token), c')) := by
    intro r
    refine Ends.bind (Scalar.ignoredLine_moves _ _ _) fun c₂ hc => moves_ok ?_
    split at hc
    · exact (onward_skip _ _).trans hc
    · exact hc
  have hname := (onward_next c).trans (onward_advance c.next (c.next.run isWordChar).length)
  rw [directive]
  dsimp only
  split
  · exact trivial
  · split
    · exact trivial
    · refine Moves.from ?_ hname
      generalize c.next.advance (c.next.run isWordChar).length = c₀ at hname ⊢
      split
      · next hyaml =>
        have hprefix : "%YAML".toList <+: c.rest := by
          rw [rest_of_peek hc (by decide), show "%YAML".toList = '%' :: "YAML".toList from rfl,
            ← hyaml]
          exact List.cons_prefix_cons.2 ⟨rfl, List.takeWhile_prefix _⟩
        refine .bind (version_moves _ ((h.versions hprefix.isInfix).of_suffix hname)) ?_
        exact fun kind c₁ _ => hend (kind, c₁)
      · split
        · exact .bind (tagDirective_moves _ _) fun kind c₁ _ => hend (kind, c₁)
        · exact .bind (moves_ok (.refl _)) fun kind c₁ _ => hend (kind, c₁)

end Name

end ModernControls.Yaml
