import ModernControls.Formula.Escape
import ModernControls.Proofs.Texts
import ModernControls.Proofs.Yaml.Existing

/-!
# Lines that are gone through to the end

Both going through the lines of a text before it is read and after it is written stops at nothing
but a quoted text that names values which do not exist.

Results:
- `exists_escape`, `exists_unescape`: what there is of texts without such quoted texts.
-/

namespace ModernControls.Formula

open Yaml

/-- What a value is taken for before a text is read, if it begins with a quotation mark. -/
def openedValue? (value : Text) : Option Text :=
  if value.head? = some '"' then some value.trimEnd else none

/-- What `quoted?` finds in the value of a key line. -/
def quotedOn? (quoted? : Text → Option Text) (line : Text) : Option Text := do
  let k ← KeyLine.parse? line
  let (_, value) ← k.value
  quoted? value

/-- Whether all values exist that the quoted texts on the key lines of a text name. -/
def QuotesExist (quoted? : Text → Option Text) (text : Text) : Prop :=
  ∀ line ∈ text.lines, ∀ quoted ∈ quotedOn? quoted? line, ValuesExist .full quoted

instance (quoted? : Text → Option Text) (text : Text) : Decidable (QuotesExist quoted? text) :=
  inferInstanceAs (Decidable (∀ line ∈ text.lines, ∀ quoted ∈ quotedOn? quoted? line,
    ValuesExist .full quoted))

theorem exists_decode {quoted : Text} (h : ValuesExist .full quoted) :
    ∃ found, decode quoted = .ok found := by
  have hends := Yaml.Tree.ofText_ends h Empty
  rw [decode]
  split
  · exact ⟨_, rfl⟩
  · exact ⟨_, rfl⟩
  · next b he => exact (hends.of_error he).elim
  · exact ⟨_, rfl⟩

/-! ## Before reading -/

theorem exists_treatmentOfQuoted {value : Text} (h : ValuesExist .full value) :
    ∃ found, treatmentOfQuoted value = .ok found := by
  obtain ⟨found, hd⟩ := exists_decode h
  rw [treatmentOfQuoted, hd]
  cases found <;> exact ⟨_, rfl⟩

theorem exists_treatment (key : Text) {value : Text}
    (h : ∀ quoted ∈ openedValue? value, ValuesExist .full quoted) :
    ∃ found, treatment key value = .ok found := by
  cases value with
  | nil => exact ⟨_, rfl⟩
  | cons c rest =>
    rw [treatment]
    split
    · exact ⟨_, rfl⟩
    · rw [treatmentOfPlain.eq_def]
      split
      · exact ⟨_, rfl⟩
      · next d more hd =>
        split
        · next hquote =>
          have hne : Text.trimEnd (c :: rest) ≠ [] := hd ▸ List.cons_ne_nil d more
          have hhead : (c :: rest).head? = some '"' := by
            rw [← Text.head_trimEnd hne, hd, hquote, List.head?_cons]
          exact exists_treatmentOfQuoted (h _ (by rw [openedValue?, if_pos hhead]; rfl))
        · split
          · exact ⟨_, rfl⟩
          · split
            · exact ⟨_, rfl⟩
            · exact ⟨_, rfl⟩

theorem quotedOn?_eq {quoted? : Text → Option Text} {line indent key blanks value : Text}
    (h : KeyLine.parse? line = some ⟨indent, key, some (blanks, value)⟩) :
    quotedOn? quoted? line = quoted? value := by
  rw [quotedOn?, h]
  rfl

theorem exists_escapeLine {line : Text}
    (h : ∀ quoted ∈ quotedOn? openedValue? line, ValuesExist .full quoted) :
    ∃ found, escapeLine line = .ok found := by
  rw [escapeLine]
  split
  · next indent key blanks value hk =>
    rw [quotedOn?_eq hk] at h
    obtain ⟨found, ht⟩ := exists_treatment key.trim h
    rw [ht]
    cases found <;> exact ⟨_, rfl⟩
  · exact ⟨_, rfl⟩

/-- The induction is on the lines, whatever block each of them may belong to. -/
theorem exists_escapeLines {lines : List Text}
    (h : ∀ line ∈ lines, ∀ quoted ∈ quotedOn? openedValue? line, ValuesExist .full quoted)
    (block : Option Nat) : ∃ escaped, escapeLines block lines = .ok escaped := by
  induction lines generalizing block with
  | nil => exact ⟨_, rfl⟩
  | cons line rest ih =>
    have hrest := ih fun l hl => h l (List.mem_cons_of_mem _ hl)
    rw [escapeLines]
    split
    · obtain ⟨escaped, he⟩ := hrest block
      exact ⟨line :: escaped, by simp only [he, bind, Except.bind]⟩
    · obtain ⟨⟨line', block'⟩, hl⟩ := exists_escapeLine (h line List.mem_cons_self)
      obtain ⟨escaped, he⟩ := hrest block'
      exact ⟨line' :: escaped, by simp only [hl, he, bind, Except.bind]⟩

theorem exists_escape {text : Text} (h : QuotesExist openedValue? text.unifyBreaks) :
    ∃ escaped, escape text = .ok escaped := by
  obtain ⟨lines, hl⟩ := exists_escapeLines h none
  exact ⟨Text.ofLines lines, by rw [escape, hl]; rfl⟩

/-! ## After writing -/

theorem exists_unescapeLine {line : Text}
    (h : ∀ quoted ∈ quotedOn? quotedValue? line, ValuesExist .full quoted) :
    ∃ lines, unescapeLine line = .ok lines := by
  rw [unescapeLine]
  split
  · next indent key blanks value hk =>
    rw [quotedOn?_eq hk] at h
    split
    · next quoted hq =>
      obtain ⟨found, hd⟩ := exists_decode (h quoted hq)
      rw [hd]
      cases found <;> exact ⟨_, rfl⟩
    · exact ⟨_, rfl⟩
  · exact ⟨_, rfl⟩

theorem exists_unescapeLines {lines : List Text}
    (h : ∀ line ∈ lines, ∀ quoted ∈ quotedOn? quotedValue? line, ValuesExist .full quoted) :
    ∃ unescaped, unescapeLines lines = .ok unescaped := by
  induction lines with
  | nil => exact ⟨_, rfl⟩
  | cons line rest ih =>
    obtain ⟨first, hf⟩ := exists_unescapeLine (h line List.mem_cons_self)
    obtain ⟨others, ho⟩ := ih fun l hl => h l (List.mem_cons_of_mem _ hl)
    exact ⟨first ++ others, by simp only [unescapeLines, hf, ho, bind, Except.bind]⟩

theorem exists_unescape {text : Text} (h : QuotesExist quotedValue? text) :
    ∃ unescaped, unescape text = .ok unescaped := by
  obtain ⟨lines, hl⟩ := exists_unescapeLines h
  exact ⟨Text.ofLines lines, by rw [unescape, hl]; rfl⟩

end ModernControls.Formula
