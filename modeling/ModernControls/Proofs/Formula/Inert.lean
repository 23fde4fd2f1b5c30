import ModernControls.Proofs.Formula.Settled

/-!
# Texts without meaning

Texts of characters that mean nothing in YAML text: no blank, colon or number sign among them. Such
a text may be written plain, and unless it holds a character that has a meaning somewhere, or is a
word for a truth value, it is not quoted when it is escaped. Numbers are such texts.

Results:
- `isPlainText_inert`: such a text may be written plain;
- `not_needsQuotes`: it is not quoted when it is escaped.
-/
namespace ModernControls

open Yaml Layout

namespace Formula

/-- Whether a character means nothing in a plain scalar wherever it stands. -/
def isInert (c : Char) : Bool := isInline c && c ≠ ' ' && c ≠ ':' && c ≠ '#'

theorem of_isInert {c : Char} (h : isInert c = true) :
    isInline c = true ∧ c ≠ ' ' ∧ c ≠ ':' ∧ c ≠ '#' := by
  simpa [isInert, and_assoc] using h

theorem hasPair_of_not {p q : Char → Bool} {t : Text} (h : ∀ c ∈ t, p c = false) :
    hasPair p q t = false := by
  induction t with
  | nil => rfl
  | cons a t ih =>
    cases t with
    | nil => rfl
    | cons b t =>
      rw [hasPair, h a List.mem_cons_self, ih fun c hc => h c (List.mem_cons_of_mem _ hc)]
      rfl

theorem holdsIndicatorAfter_of_inert {t : Text} (h : ∀ c ∈ t, isInert c = true) (before : Char) :
    holdsIndicatorAfter before t = false := by
  induction t generalizing before with
  | nil => rfl
  | cons c t ih =>
    obtain ⟨-, -, h1, h2⟩ := of_isInert (h c List.mem_cons_self)
    rw [holdsIndicatorAfter, ih fun d hd => h d (List.mem_cons_of_mem _ hd)]
    simp [h1, h2]

/-- A text without meaning may be written plain if it does not begin like something else. -/
theorem isPlainText_inert {t : Text} (hne : t ≠ []) (h : ∀ c ∈ t, isInert c = true)
    (hs : startsLikeIndicator t = false) : isPlainText t = true := by
  have hinline : ∀ c ∈ t, isOrdinary c = true ∧ isFold c = false := fun c hc => by
    have := (of_isInert (h c hc)).1
    simp only [isInline, Bool.and_eq_true, Bool.not_eq_true'] at this
    exact this
  have hspace : ∀ c ∈ t, isSpace c = false := fun c hc => by
    simpa [isSpace] using (of_isInert (h c hc)).2.1
  have hkeeps : keepsSpaces t = true := by
    rw [keepsSpaces, hasPair_of_not hspace, List.all_eq_true.2 fun c hc => (hinline c hc).1]
    rfl
  have hgap : hasGapAtEdge t = false := by
    have hp : ∀ c ∈ t, (isSpace c || isFold c) = false := fun c hc => by
      rw [hspace c hc, (hinline c hc).2]
      rfl
    have hhead : t.head?.any (fun c => isSpace c || isFold c) = false := by
      rw [Option.any_eq_false]
      exact fun c hc => by simpa using hp c (List.mem_of_mem_head? hc)
    have hlast : t.getLast?.any (fun c => isSpace c || isFold c) = false := by
      rw [Option.any_eq_false]
      exact fun c hc => by simpa using hp c (List.mem_of_getLast? hc)
    rw [hasGapAtEdge, hhead, hlast]
    rfl
  have hlines : isMultiline t = false := by
    rw [isMultiline, List.any_eq_false]
    exact fun c hc => by simp [(hinline c hc).2]
  have hmarks : holdsIndicator t = false := by
    obtain ⟨c, r, rfl⟩ := List.exists_cons_of_ne_nil hne
    exact holdsIndicatorAfter_of_inert (fun d hd => h d (List.mem_cons_of_mem _ hd)) c
  rw [isPlainText, hkeeps, hgap, hlines, hs, hmarks]
  simpa using hne

/-- A text that begins with a letter, a digit or another character that begins nothing. -/
theorem startsLikeIndicator_of_head {c : Char} (r : Text)
    (h : c ∉ firstIndicators ++ loneIndicators ++ ['.']) : startsLikeIndicator (c :: r) = false := by
  simp only [List.mem_append, not_or] at h
  have h1 : firstIndicators.contains c = false := by simpa using h.1.1
  have h2 : loneIndicators.contains c = false := by simpa using h.1.2
  have h3 : c ≠ '-' := fun he => h.1.2 (he ▸ by decide)
  have h4 : c ≠ '.' := by simpa using h.2
  rw [startsLikeIndicator, h1, h2]
  simp [Text.startsWith, h3, h4]

theorem isVersionedType_of_not_mem {t : Text} (h : '@' ∉ t) : isVersionedType t = false := by
  rw [isVersionedType, Text.cut_of_not_mem h]

/-- What has no meaning anywhere is not quoted, but for words that mean a truth value. -/
theorem not_needsQuotes {t : Text} (h : ∀ c ∈ t, c ∉ '@' :: '\x60' :: specialChars)
    (hw : isStrayTruth t = false) (key : Text) : needsQuotes key t = false := by
  have hat : '@' ∉ t := fun hm => h _ hm List.mem_cons_self
  have hspecial : t.any specialChars.contains = false := by
    rw [List.any_eq_false]
    exact fun c hc => by
      have := h c hc
      simp only [List.mem_cons, not_or] at this
      simpa using this.2.2
  cases t with
  | nil => rfl
  | cons c r =>
    have hc := h c List.mem_cons_self
    simp only [List.mem_cons, not_or] at hc
    rw [needsQuotes, isVersionedType_of_not_mem hat, hw, hspecial]
    simp [hc.1, hc.2.1]

/-- A text is no word for a truth value if it does not begin with one of their letters. -/
theorem not_isStrayTruth {c : Char} (h : caseless c ∉ ['y', 'n', 'o', 't', 'f']) (r : Text) :
    isStrayTruth (c :: r) = false := by
  have hwords : truthWords.contains ((c :: r).map caseless) = false := by
    rw [Bool.eq_false_iff, ne_eq, List.contains_iff_mem]
    intro hm
    have hheads : ∀ w ∈ truthWords, ∃ d ∈ w.head?, d ∈ ['y', 'n', 'o', 't', 'f'] := by decide
    obtain ⟨d, hd, hm⟩ := hheads _ hm
    obtain rfl : caseless c = d := by simpa using hd
    exact h hm
  rw [isStrayTruth, hwords]
  rfl

end Formula

end ModernControls
