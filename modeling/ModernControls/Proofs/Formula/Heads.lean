import ModernControls.Formula.Line
import ModernControls.Proofs.Texts
import ModernControls.Proofs.Yaml.OutlineRows

/-!
# Key lines among the rows of an outline

Which rows of an outline are key lines. The key has to be a plain word without a colon but for its
first character, and at most one dash may stand before it; then the line is split after it, whatever
follows. No other row with an end that is read as it is meant is a key line with a value.

Results:
- `parse?_text`: what a line behind a key is split into;
- `parse?_item`: a line behind the dash of an item is not split.
-/
namespace ModernControls

namespace Formula

open Yaml

/-- A text that begins with no blank of a line. -/
def Begins (t : Text) : Prop := ∀ c ∈ t.head?, isSpaceOrTab c = false

theorem takeWhile_spaces (m : Nat) {t : Text} (h : Begins t) :
    (Text.spaces m ++ t).takeWhile isSpaceOrTab = Text.spaces m
      ∧ (Text.spaces m ++ t).dropWhile isSpaceOrTab = t := by
  have hall : ∀ c ∈ Text.spaces m, isSpaceOrTab c = true := fun c hc => by
    rw [List.eq_of_mem_replicate hc]
    rfl
  rw [List.takeWhile_append_of_pos hall, List.dropWhile_append_of_pos hall]
  cases t with
  | nil => simp
  | cons c t =>
    have hc := h c rfl
    simp [hc]

theorem indentOf_spaces (m : Nat) {t : Text} (h : Begins t) (hd : t.head? ≠ some '-') :
    indentOf (Text.spaces m ++ t) = (Text.spaces m, t) := by
  obtain ⟨h1, h2⟩ := takeWhile_spaces m h
  rw [indentOf, h1, h2]
  cases t with
  | nil => rfl
  | cons c t =>
    have : c ≠ '-' := by simpa using hd
    dsimp only
    split
    · next heq => exact absurd (List.cons.inj heq).1 this
    · rfl

/-- A dash before a blank is that of an item. -/
theorem indentOf_dash (m : Nat) {t : Text} (h : Begins t) :
    indentOf (Text.spaces m ++ '-' :: ' ' :: t) = (Text.spaces m ++ ['-', ' '], t) := by
  obtain ⟨h1, h2⟩ := takeWhile_spaces m (t := '-' :: ' ' :: t) (by simp [Begins]; decide)
  obtain ⟨h3, h4⟩ := takeWhile_spaces 1 h
  have h3 : (' ' :: t).takeWhile isSpaceOrTab = [' '] := h3
  have h4 : (' ' :: t).dropWhile isSpaceOrTab = t := h4
  rw [indentOf, h1, h2]
  simp only [h3, h4]
  rfl

/-- Any other dash begins what is on the line. -/
theorem indentOf_lone (m : Nat) {t : Text} (h : Begins t) :
    indentOf (Text.spaces m ++ '-' :: t) = (Text.spaces m, '-' :: t) := by
  obtain ⟨h1, h2⟩ := takeWhile_spaces m (t := '-' :: t) (by simp [Begins]; decide)
  have h3 : t.takeWhile isSpaceOrTab = [] := by
    cases t with
    | nil => rfl
    | cons c t => rw [List.takeWhile_cons, if_neg (by simp [h c rfl])]
  rw [indentOf, h1, h2]
  simp only [h3]
  rfl

namespace KeyLine

theorem parse?_of_indentOf {line indent rest : Text} {c : Char}
    (h : indentOf line = (indent, c :: rest)) (hc : startsKey c = false) : parse? line = none := by
  rw [parse?, h]
  simp [hc]

/-- A key with a value, or without one. -/
theorem parse?_key {line indent rest key after : Text} {c : Char}
    (h : indentOf line = (indent, c :: rest)) (hc : startsKey c = true)
    (hcut : Text.cut ':' rest = (key, some after)) :
    parse? line = (valueOf? after).map fun value => ⟨indent, c :: key, value⟩ := by
  rw [parse?, h]
  simp only [hc, if_true, hcut]

theorem parse?_no_colon {line indent rest : Text} {c : Char}
    (h : indentOf line = (indent, c :: rest)) (hcut : ':' ∉ rest) : parse? line = none := by
  rw [parse?, h]
  simp only [Text.cut_of_not_mem hcut]
  split <;> rfl

theorem valueOf?_of_begins {after : Text} (hne : after ≠ []) (h : Begins after) :
    valueOf? after = none := by
  obtain ⟨c, t, rfl⟩ := List.exists_cons_of_ne_nil hne
  simp [valueOf?, h c rfl]

theorem valueOf?_space {value : Text} (h : Begins value) :
    valueOf? (' ' :: value) = some (some ([' '], value)) := by
  obtain ⟨h1, h2⟩ := takeWhile_spaces 1 h
  have h1 : (' ' :: value).takeWhile isSpaceOrTab = [' '] := h1
  have h2 : (' ' :: value).dropWhile isSpaceOrTab = value := h2
  rw [valueOf?, h1, h2]
  rfl

end KeyLine

end Formula

open Formula KeyLine

namespace Yaml

/-- The key of a head that is found again on its line. -/
def Head.bareKey? (h : Head) : Option Text :=
  match h.key with
  | some (.plain (c :: t)) =>
    if h.dashes ≤ 1 ∧ startsKey c = true ∧ ':' ∉ t then some (c :: t) else none
  | _ => none

namespace Head

/-- The keys of the rows are words that are read as they are meant. -/
def Sound (h : Head) : Prop := ∀ w, h.key = some w → w.Sound

theorem no_feed_lead (h : Head) : '\n' ∉ h.lead := by
  simp only [lead, List.mem_append, List.mem_flatten, List.mem_replicate, Text.spaces, not_or,
    not_exists, not_and]
  exact ⟨fun _ => by decide, fun x hx => hx.2 ▸ by decide⟩

/-- A head is on one line. -/
theorem no_feed {h : Head} (hs : h.Sound) : '\n' ∉ h.text := by
  rw [text, List.mem_append, not_or]
  refine ⟨no_feed_lead h, ?_⟩
  rw [mark]
  cases hk : h.key with
  | none => decide
  | some w =>
    have hw : '\n' ∉ w.written := fun hc => absurd (Word.not_break (hs w hk) _ hc) (by decide)
    simpa using hw

theorem lead_zero (margin : Nat) (key : Option Word) :
    (⟨margin, 0, key⟩ : Head).lead = Text.spaces margin := by
  simp [lead]

theorem lead_succ (margin dashes : Nat) (key : Option Word) :
    (⟨margin, dashes + 1, key⟩ : Head).lead
      = Text.spaces margin ++ '-' :: ' ' :: (List.replicate dashes ['-', ' ']).flatten := by
  simp [lead, List.replicate_succ]

theorem length_lead (h : Head) : h.lead.length = h.column := by
  simp [lead, column, Layout.step]
  omega

/-- Behind more than one dash nothing is a key. -/
theorem parse?_dashes {margin dashes : Nat} {key : Option Word} (t : Text) :
    parse? ((⟨margin, dashes + 2, key⟩ : Head).lead ++ t) = none := by
  rw [lead_succ, List.replicate_succ]
  simp only [List.flatten_cons, List.append_assoc, List.cons_append, List.nil_append]
  exact parse?_of_indentOf (indentOf_dash margin (by simp [Begins]; decide)) (by decide)

/-- Behind at most one dash, what comes next is looked at. -/
theorem indentOf_lead {h : Head} (hd : h.dashes ≤ 1) {t : Text} (ht : Begins t)
    (hne : t.head? ≠ some '-') : indentOf (h.lead ++ t) = (h.lead, t) := by
  obtain ⟨margin, dashes, key⟩ := h
  rcases Nat.le_one_iff_eq_zero_or_eq_one.1 hd with rfl | rfl
  · rw [lead_zero]
    exact indentOf_spaces margin ht hne
  · rw [lead_succ]
    simp only [List.replicate_zero, List.flatten_nil, List.append_assoc, List.cons_append,
      List.nil_append]
    exact indentOf_dash margin ht

theorem parse?_start {h : Head} {c : Char} {t : Text} (hc : startsKey c = false)
    (hb : isSpaceOrTab c = false) (hdash : c = '-' → Begins t) :
    parse? (h.lead ++ c :: t) = none := by
  obtain ⟨margin, dashes, key⟩ := h
  have hbegins : Begins (c :: t) := by simpa [Begins] using hb
  match dashes with
  | 0 =>
    rw [lead_zero]
    by_cases hd : c = '-'
    · subst hd
      exact parse?_of_indentOf (indentOf_lone margin (hdash rfl)) hc
    · exact parse?_of_indentOf (indentOf_spaces margin hbegins (by simpa using hd)) hc
  | 1 =>
    rw [lead_succ]
    simp only [List.replicate_zero, List.flatten_nil, List.append_assoc, List.cons_append,
      List.nil_append]
    exact parse?_of_indentOf (indentOf_dash margin hbegins) hc
  | dashes + 2 => exact parse?_dashes _

/-- A text that goes on without a blank. -/
theorem begins_of_goesOn {b : Text} (h : Layout.goesOn b = true) :
    b ≠ [] ∧ ∀ r, Begins (b ++ r) := by
  cases b with
  | nil => simp [Layout.goesOn] at h
  | cons d b =>
    simp only [Layout.goesOn, isGapBreakOrEnd, Bool.and_eq_true, Bool.not_eq_true',
      Bool.or_eq_false_iff] at h
    exact ⟨by simp, fun r => by simpa [Begins, isSpaceOrTab, isGap] using h.1.1⟩

/-- What is behind a colon in a plain word goes on without a blank. -/
theorem goesOn_after_colon {c : Char} {a b : Text}
    (h : Layout.holdsIndicatorAfter c (a ++ ':' :: b) = false) : Layout.goesOn b = true := by
  induction a generalizing c with
  | nil =>
    simp only [List.nil_append, Layout.holdsIndicatorAfter, Bool.or_eq_false_iff] at h
    simpa using h.1.1
  | cons d a ih =>
    rw [List.cons_append, Layout.holdsIndicatorAfter, Bool.or_eq_false_iff] at h
    exact ih h.2

/-- The first character of a sound word is no blank. -/
theorem begins_word {w : Word} (hw : w.Sound) (r : Text) : Begins (w.written ++ r) := by
  obtain ⟨c, t, hcr, h1, h2, -⟩ := Word.head_written hw
  rw [hcr]
  simp [Begins, isSpaceOrTab, h1, h2]

/-- A line behind a key is split after the key if the key is found again, else it is not split. -/
theorem parse?_text {h : Head} {w : Word} (hk : h.key = some w) (hw : w.Sound) (tail : Text) :
    parse? (h.text ++ tail) = match h.bareKey? with
      | some key => (valueOf? tail).map fun value => ⟨h.lead, key, value⟩
      | none => none := by
  have htext : h.text ++ tail = h.lead ++ (w.written ++ ':' :: tail) := by
    simp [text, mark, hk]
  have hbegins := begins_word hw (':' :: tail)
  rw [htext]
  cases w with
  | single t =>
    rw [bareKey?, hk]
    exact parse?_start (by decide) (by decide) fun he => absurd he (by decide)
  | double ps =>
    rw [bareKey?, hk]
    exact parse?_start (by decide) (by decide) fun he => absurd he (by decide)
  | plain t =>
    obtain ⟨c, r, rfl, -, -, -, hlone, -, -, -, hmarks, -⟩ := of_isPlainText hw
    have hb : isSpaceOrTab c = false := hbegins c rfl
    rw [bareKey?, hk]
    dsimp only
    by_cases hc : startsKey c = true
    · by_cases hd : h.dashes ≤ 1
      · have hne : c ≠ '-' := by
          rintro rfl
          exact absurd hc (by decide)
        have hi := indentOf_lead hd hbegins (by simpa [Word.written] using hne)
        by_cases hcolon : ':' ∈ r
        · rw [if_neg (by simp [hcolon])]
          obtain ⟨a, b, rfl, ha⟩ := List.eq_append_cons_of_mem hcolon
          obtain ⟨hb', hbb⟩ := begins_of_goesOn (goesOn_after_colon hmarks)
          have hcut : Text.cut ':' ((a ++ ':' :: b) ++ ':' :: tail) = (a, some (b ++ ':' :: tail)) := by
            simpa using Text.cut_append ha (b ++ ':' :: tail)
          refine (parse?_key hi hc hcut).trans ?_
          rw [valueOf?_of_begins (by simp) (hbb _)]
          rfl
        · rw [if_pos ⟨hd, hc, hcolon⟩]
          exact parse?_key hi hc (Text.cut_append hcolon tail)
      · rw [if_neg (by simp [hd])]
        obtain ⟨margin, dashes, key⟩ := h
        obtain ⟨dashes, rfl⟩ : ∃ d, dashes = d + 2 := ⟨dashes - 2, by simp at hd; omega⟩
        exact parse?_dashes _
    · rw [if_neg (by simp [hc])]
      refine parse?_start (by simpa using hc) hb ?_
      rintro rfl
      exact (begins_of_goesOn (hlone (by decide))).2 _

/-- A line behind the dash of an item is not split. -/
theorem parse?_item {h : Head} (hk : h.key = none) {last : LineEnd}
    (hl : ∀ w, last = .word w → w.Sound) (hf : ∀ e, last ≠ .formula e)
    (hb : ∀ keeps lines, last ≠ .literal keeps lines) : parse? (h.text ++ last.first) = none := by
  obtain ⟨margin, dashes, key⟩ := h
  obtain rfl : key = none := hk
  have htext : ∀ t, (⟨margin, dashes, none⟩ : Head).text ++ t
      = (⟨margin, dashes, none⟩ : Head).lead ++ '-' :: t := fun t => by simp [text, mark]
  rw [htext]
  have hvalue : ∀ c t, isSpaceOrTab c = false →
      (startsKey c = false ∨ ∀ indent line, indentOf line = (indent, c :: t) → parse? line = none) →
      parse? ((⟨margin, dashes, none⟩ : Head).lead ++ '-' :: ' ' :: c :: t) = none := by
    intro c t hb hc
    have hbegins : Begins (c :: t) := by simpa [Begins] using hb
    cases dashes with
    | zero =>
      rw [lead_zero]
      have hi := indentOf_dash margin hbegins
      rcases hc with hc | hc
      · exact parse?_of_indentOf hi hc
      · exact hc _ _ hi
    | succ dashes =>
      have : (⟨margin, dashes + 1, none⟩ : Head).lead ++ '-' :: ' ' :: c :: t
          = (⟨margin, dashes + 2, none⟩ : Head).lead ++ c :: t := by
        simp [lead, List.replicate_succ']
      rw [this]
      exact parse?_dashes _
  cases last with
  | nothing => exact parse?_start (by decide) (by decide) fun _ => by simp [Begins, LineEnd.first]
  | formula e => exact absurd rfl (hf e)
  | literal keeps lines => exact absurd rfl (hb keeps lines)
  | brackets =>
    exact hvalue '[' [']'] (by decide) (.inr fun indent line hi => parse?_no_colon hi (by decide))
  | braces =>
    exact hvalue '\x7b' ['\x7d'] (by decide)
      (.inr fun indent line hi => parse?_no_colon hi (by decide))
  | word w =>
    have hw := hl w rfl
    cases w with
    | single t => exact hvalue '\'' _ (by decide) (.inl (by decide))
    | double ps => exact hvalue '"' _ (by decide) (.inl (by decide))
    | plain t =>
      have hbegins := begins_word hw []
      obtain ⟨c, r, rfl, -, -, -, -, -, -, -, hmarks, -⟩ := of_isPlainText hw
      refine hvalue c r (hbegins c rfl) (.inr fun indent line hi => ?_)
      by_cases hcolon : ':' ∈ r
      · obtain ⟨a, b, rfl, ha⟩ := List.eq_append_cons_of_mem hcolon
        obtain ⟨hb', hbb⟩ := begins_of_goesOn (goesOn_after_colon hmarks)
        have hnone := valueOf?_of_begins hb' (by simpa using hbb [])
        by_cases hc : startsKey c = true
        · rw [parse?_key hi hc (Text.cut_append ha b), hnone]
          rfl
        · exact parse?_of_indentOf hi (by simpa using hc)
      · exact parse?_no_colon hi hcolon

end Head

end Yaml

end ModernControls
