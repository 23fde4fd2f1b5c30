import ModernControls.Proofs.Formula.Escaped

/-!
# Formulas on lines and in blocks

A formula without a line feed is written on its line, any other as a block below its key. Which
formulas are read back: on a line the JSON writer has to be able to quote the formula, in a block its
characters have to stand for themselves.

Results:
- `ofFormula_block`: the block of a formula says the formula after its sign;
- `sound_ofFormula`: it is read as it is meant;
- `escapable_ofFormula`: and it can be escaped.
-/
namespace ModernControls

open Yaml

namespace Text

theorem ofLines_append (ls : List Text) (l : Text) :
    ofLines (ls ++ [l]) = closedLines ls ++ l := by
  induction ls with
  | nil => simp [ofLines, join, closedLines]
  | cons k ls ih =>
    rw [closedLines, List.flatMap_cons, ← closedLines, List.append_assoc, ← ih]
    cases ls <;> simp [ofLines, join]

theorem not_mem_of_mem_lines {t l : Text} (h : l ∈ t.lines) : '\n' ∉ l := not_mem_of_mem_split h

theorem exists_lines (t : Text) : ∃ ls l, t.lines = ls ++ [l] ∧ t = closedLines ls ++ l := by
  have hne : t.lines ≠ [] := split_ne_nil _ t
  refine ⟨t.lines.dropLast, t.lines.getLast hne, (List.dropLast_append_getLast hne).symm, ?_⟩
  rw [← ofLines_append, List.dropLast_append_getLast hne]
  exact (join_split '\n' t).symm

theorem getLast?_closedLines {ls : List Text} (h : ls ≠ []) :
    (closedLines ls).getLast? = some '\n' := by
  obtain ⟨init, l, rfl⟩ := List.eq_nil_or_concat ls |>.resolve_left h
  simp [closedLines]

/-- The last line is empty if the text ends with a line feed. -/
theorem lines_of_getLast? {t : Text} (h : t.getLast? = some '\n') :
    t.lines = t.lines.dropLast ++ [[]] ∧ closedLines t.lines.dropLast = t := by
  obtain ⟨ls, l, hl, ht⟩ := exists_lines t
  have hempty : l = [] := by
    by_contra hne
    have hmem : l.getLast hne ∈ l := List.getLast_mem hne
    have hlast : l.getLast hne = '\n' := by
      rw [ht, List.getLast?_append, List.getLast?_eq_some_getLast hne] at h
      exact Option.some.inj h
    exact not_mem_of_mem_lines (hl ▸ List.mem_append_right ls (List.mem_singleton.2 rfl))
      (hlast ▸ hmem)
  subst hempty
  rw [hl, List.dropLast_concat]
  exact ⟨rfl, by rw [ht, List.append_nil]⟩

/-- Else it is not. -/
theorem getLast?_lines_ne {t : Text} (hne : t ≠ []) (h : t.getLast? ≠ some '\n') :
    t.lines.getLast? ≠ some [] := by
  obtain ⟨ls, l, hl, ht⟩ := exists_lines t
  rw [hl, List.getLast?_concat]
  intro he
  obtain rfl := Option.some.inj he
  rw [List.append_nil] at ht
  exact h (ht ▸ getLast?_closedLines fun hls => hne (by rw [ht, hls]; rfl))

theorem mem_of_mem_lines {t l : Text} (hl : l ∈ t.lines) {c : Char} (hc : c ∈ l) :
    c ∈ t ∧ c ≠ '\n' := by
  refine ⟨?_, fun he => not_mem_of_mem_lines hl (he ▸ hc)⟩
  obtain ⟨ls, k, hls, ht⟩ := exists_lines t
  rw [hls] at hl
  rw [ht, closedLines]
  rcases List.mem_append.1 hl with hl | hl
  · exact List.mem_append_left _ (List.mem_flatMap.2 ⟨l, hl, List.mem_append_left _ hc⟩)
  · exact List.mem_append_right _ (List.mem_singleton.1 hl ▸ hc)

/-- The first line begins with the first character, unless that ends it. -/
theorem lines_cons {c : Char} (hc : c ≠ '\n') (t : Text) :
    ∃ l ls, lines (c :: t) = (c :: l) :: ls ∧ t.lines = l :: ls := by
  obtain ⟨l, ls, h⟩ := List.exists_cons_of_ne_nil (split_ne_nil '\n' t)
  refine ⟨l, ls, ?_, h⟩
  rw [lines, split, if_neg hc, h]

theorem two_lines {t : Text} (h : '\n' ∈ t) : 2 ≤ t.lines.length := by
  have := List.count_pos_iff.2 h
  rw [lines, length_split, lineFeed]
  omega

end Text

namespace Formula

/-- Whether a formula is read back where it is written. -/
structure Keeps (f : Text) : Prop where
  mark : f.head? ≠ some formulaMark
  line : '\n' ∉ f → ∀ c ∈ f, isSafe c = true ∧ c ≠ '\r'
  block : '\n' ∈ f → ∀ c ∈ f, c = '\n' ∨ isReadable c = true ∧ isBreakOrEnd c = false

end Formula

namespace Yaml

open Formula

namespace LineEnd

variable {f : Text}

theorem ofFormula_line (h : '\n' ∉ f) : ofFormula f = formula f := by
  rw [ofFormula, if_neg (by simpa using h)]

/-- The block of a formula says the formula after its sign. -/
theorem ofFormula_block (h : '\n' ∈ f) : ∃ keeps l ls, ofFormula f = literal keeps (('=' :: l) :: ls)
    ∧ Scalar.blockValue keeps (('=' :: l) :: ls) = formulaSign :: f
    ∧ (keeps = false → (('=' :: l) :: ls).getLast? ≠ some [])
    ∧ ∀ k ∈ ('=' :: l) :: ls, ∀ c ∈ k, c ∈ formulaSign :: f ∧ c ≠ '\n' := by
  obtain ⟨l, ls, hl, -⟩ := Text.lines_cons (c := formulaSign) (by decide) f
  have htwo := Text.two_lines (t := formulaSign :: f) (List.mem_cons_of_mem _ h)
  rw [ofFormula, if_pos (by simpa using h)]
  dsimp only
  by_cases hlast : (formulaSign :: f).getLast? = some '\n'
  · obtain ⟨k, ks, rfl⟩ := List.exists_cons_of_ne_nil (l := ls) (by
      rintro rfl
      rw [hl] at htwo
      simp at htwo)
    rw [if_pos hlast]
    obtain ⟨-, hvalue⟩ := Text.lines_of_getLast? hlast
    rw [hl] at hvalue ⊢
    rw [List.dropLast_cons_cons] at hvalue ⊢
    refine ⟨true, l, _, rfl, hvalue, by simp, fun x hx c hc => ?_⟩
    refine Text.mem_of_mem_lines (t := formulaSign :: f) ?_ hc
    rw [hl]
    exact List.dropLast_subset (_ :: k :: ks) (by rwa [List.dropLast_cons_cons])
  · rw [if_neg hlast]
    have hne := Text.getLast?_lines_ne (List.cons_ne_nil _ _) hlast
    have hvalue : Text.ofLines (Text.lines (formulaSign :: f)) = formulaSign :: f := Text.join_split _ _
    rw [hl] at hne hvalue ⊢
    exact ⟨false, l, ls, rfl, hvalue, fun _ => hne, fun x hx c hc =>
      Text.mem_of_mem_lines (t := formulaSign :: f) (by rw [hl]; exact hx) hc⟩

theorem readable_sign : isReadable formulaSign = true ∧ isBreakOrEnd formulaSign = false := by decide

/-- A formula that is read back can be escaped where it is written. -/
theorem escapable_ofFormula (h : Formula.Keeps f) {head : Head} {key : Text}
    (hk : head.bareKey? = some key) : (ofFormula f).Escapable head := by
  by_cases hf : '\n' ∈ f
  · obtain ⟨keeps, l, ls, he, -, -, hmem⟩ := ofFormula_block hf
    rw [he]
    refine ⟨by rw [hk]; rfl, fun k hkm => ⟨fun hc => (hmem k hkm _ hc).2 rfl, fun hc => ?_⟩⟩
    rcases List.mem_cons.1 (hmem k hkm _ hc).1 with he | hc
    · exact absurd he (by decide)
    · rcases h.block hf _ hc with he | ⟨-, hb⟩
      · exact absurd he (by decide)
      · exact absurd hb (by decide)
  · rw [ofFormula_line hf]
    exact ⟨by rw [hk]; rfl, hf, fun hc => (h.line hf _ hc).2 rfl⟩

/-- The block of a formula is read as it is meant. -/
theorem sound_ofFormula (h : Formula.Keeps f) (hf : '\n' ∈ f) : ∃ keeps lines,
    ofFormula f = literal keeps lines ∧ (literal keeps lines).Sound
      ∧ Scalar.blockValue keeps lines = formulaSign :: f := by
  obtain ⟨keeps, l, ls, he, hvalue, hlast, hmem⟩ := ofFormula_block hf
  have hread : ∀ k ∈ ('=' :: l) :: ls, ∀ c ∈ k, isReadable c = true ∧ isBreakOrEnd c = false := by
    intro k hk c hc
    obtain ⟨hm, hn⟩ := hmem k hk c hc
    rcases List.mem_cons.1 hm with rfl | hm
    · exact readable_sign
    · exact (h.block hf c hm).resolve_left hn
  exact ⟨keeps, _, he, ⟨_, _, rfl, ⟨'=', l, rfl, by decide⟩, fun k hk c hc => (hread k hk c hc).2,
    hlast, fun k hk c hc => (hread k hk c hc).1⟩, hvalue⟩

end LineEnd

end Yaml

end ModernControls
