import ModernControls.Proofs.Control.Agreement
import ModernControls.Proofs.Formula.Inert
import ModernControls.Proofs.Yaml.Fractions

/-!
# Line ends that stay

What is written at the end of a line stays if it is restored to something that can be escaped, and
what is read at last agrees with what was written.

Results:
- `stays_text`: texts that no step takes for something else stay;
- `PlainScalar.stays`: so do scalars that are written plain and are never quoted;
- `plainScalar_int`, `plainScalar_float`, `plainScalar_bool`: numbers and truth values are such
  scalars.
-/
namespace ModernControls

open Yaml Layout Formula

namespace Yaml

/-- The style that a form asks for. -/
def TextForm.style? : TextForm → Option ScalarStyle
  | .forced style => some style
  | _ => none

namespace LineEnd

/-- What becomes of a line end when a text is restored and escaped again. -/
def settled (h : Head) (last : LineEnd) : LineEnd := escaped h (restored h last)

/-- Whether a line end that means a tree is written, restored, escaped and read as that tree. -/
structure Stays (h : Head) (last : LineEnd) (source : PlainValue) : Prop where
  laid : last.Laid
  escapable : (restored h last).Escapable h
  sound : (settled h last).Sound
  means : ∃ tree, (settled h last).tree? = some tree ∧ Agrees source tree

variable {h : Head}

/-- A line end that no step changes. -/
theorem Stays.of_fixed {last : LineEnd} {source : PlainValue} (hl : last.Laid)
    (hr : restored h last = last) (he : escaped h last = last) (hesc : last.Escapable h)
    (hs : last.Sound) (ht : last.tree? = some source) (ha : Agrees source source) :
    Stays h last source := by
  have hsettled : settled h last = last := by rw [settled, hr, he]
  exact ⟨hl, hr.symm ▸ hesc, hsettled.symm ▸ hs, source, hsettled.symm ▸ ht, ha⟩

theorem stays_nothing : Stays h nothing .null :=
  .of_fixed trivial (restored_of_ne (by simp) h) (escaped_nothing h) trivial trivial rfl rfl

theorem escaped_brackets : escaped h brackets = brackets := by
  rw [escaped]
  split <;> rfl

theorem escaped_braces : escaped h braces = braces := by
  rw [escaped]
  split <;> rfl

theorem stays_brackets : Stays h brackets (.list []) :=
  .of_fixed trivial (restored_of_ne (by simp) h) escaped_brackets trivial trivial rfl
    ⟨[], rfl, rfl⟩

theorem stays_braces : Stays h braces (.map []) :=
  .of_fixed trivial (restored_of_ne (by simp) h) escaped_braces trivial trivial rfl
    ⟨[], rfl, rfl⟩

/-- A text that no step takes for something else stays. -/
theorem stays_text {key : Option Text} {leaf : Leaf} (hk : KeepsLeaf key leaf)
    (hh : ∀ k, h.bareKey? = some k → key = some k) (form : TextForm) :
    Stays h (.ofLeaf leaf) (.text leaf.text form) := by
  obtain ⟨hesc, hsound, s, form', htree, hs⟩ := settles_ofLeaf hk hh
  refine ⟨?_, hesc, hsound, _, htree, s, form', rfl, hs⟩
  have hword : LineEnd.ofLeaf leaf = .word (.ofLeaf false leaf) :=
    if_neg fun he => ne_nil_of_plain hk.tag he.1 he.2
  rw [hword]
  exact Word.sound_ofLeaf (ne_nil_of_plain hk.tag) hk.unbroken

/-- Whether a scalar is written plain, never quoted, and read as a tree. -/
structure PlainScalar (leaf : Leaf) (source : PlainValue) : Prop where
  free : leaf.forced = none
  tag : leaf.tag = .ofScalar .full leaf.text
  plain : isPlainText leaf.text = true
  sign : leaf.text.head? ≠ some formulaSign
  edge : leaf.text.trimEnd = leaf.text
  kept : ∀ key, needsQuotes key leaf.text = false
  read : plainTree? leaf.text = some source
  agrees : Agrees source source

theorem style_scalar {leaf : Leaf} (hfree : leaf.forced = none)
    (htag : leaf.tag = .ofScalar .full leaf.text) (hp : isPlainText leaf.text = true) :
    leaf.style false = .plain := by
  have himplicit : leaf.mayBePlain false = true := by
    simp [Leaf.mayBePlain, Leaf.isImplicit, ← htag, isPlainText_ne_nil hp, hp]
  simp [Leaf.style, himplicit, hfree]

/-- What is written plain is written on one line. -/
theorem onLine_of_plain {leaf : Leaf} (hs : leaf.style false = .plain) : leaf.OnLine where
  literal := by simp [hs]
  folded := by simp [hs]
  tag := .inl hs
  unbroken := by simp [hs]

variable {leaf : Leaf} {source : PlainValue}

theorem PlainScalar.onLine (hl : PlainScalar leaf source) : leaf.OnLine :=
  onLine_of_plain (style_scalar hl.free hl.tag hl.plain)

/-- A plain scalar is written as it is. -/
theorem PlainScalar.ofLeaf_eq (hl : PlainScalar leaf source) :
    LineEnd.ofLeaf leaf = .word (.plain leaf.text) := by
  rw [ofLeaf, if_neg fun he => isPlainText_ne_nil hl.plain he.2, Word.ofLeaf,
    style_scalar hl.free hl.tag hl.plain]

/-- A plain scalar that is never quoted stays. -/
theorem PlainScalar.stays (hl : PlainScalar leaf source) : Stays h (.ofLeaf leaf) source := by
  have hsound : (Word.plain leaf.text).Sound := hl.plain
  rw [hl.ofLeaf_eq]
  refine .of_fixed hsound (restored_of_ne (by simp) h) ?_ (.inl hsound) hsound hl.read hl.agrees
  cases hbare : h.bareKey? with
  | none => exact escaped_of_none hbare _
  | some k =>
    refine escaped_keep hbare ((treatment_plain hl.plain hl.sign _).trans ?_)
    rw [hl.edge, hl.kept, if_neg (by decide)]

/-! ## Numbers and truth values -/

/-- Whether a text begins with a digit, perhaps after a minus, and consists of characters that occur
in decimal numbers. -/
structure IsNumeral (t : Text) : Prop where
  head : ∃ c r, (t = c :: r ∨ t = '-' :: c :: r) ∧ isAsciiDigit c = true
  chars : ∀ c ∈ t, isAsciiDigit c = true ∨ c ∈ ['.', 'e', '+', '-']

variable {t : Text}

theorem IsNumeral.forall {P : Char → Prop} (h : IsNumeral t) (digit : ∀ d < 10, P d.digitChar)
    (other : ∀ c ∈ ['.', 'e', '+', '-'], P c) : ∀ c ∈ t, P c :=
  fun c hc => (h.chars c hc).elim (forall_digit digit) (other c)

theorem IsNumeral.isPlainText (h : IsNumeral t) : isPlainText t = true := by
  have hinert := h.forall (P := fun c => isInert c = true) (by decide) (by decide)
  obtain ⟨c, r, ht, hd⟩ := h.head
  have hnone : c ∉ firstIndicators ++ loneIndicators ++ ['.'] :=
    forall_digit (P := fun c => c ∉ firstIndicators ++ loneIndicators ++ ['.']) (by decide) hd
  have hgap := forall_digit (P := fun c => (!isGapBreakOrEnd c && decide (c ≠ '\r')) = true)
    (by decide) hd
  rcases ht with rfl | rfl
  · exact isPlainText_inert (List.cons_ne_nil _ _) hinert (startsLikeIndicator_of_head r hnone)
  · refine isPlainText_inert (List.cons_ne_nil _ _) hinert ?_
    have hminus : c ≠ '-' := forall_digit (P := fun c => c ≠ '-') (by decide) hd
    rw [startsLikeIndicator, goesOn, hgap]
    simp [firstIndicators, Text.startsWith, hminus]

/-- A number is written plain and is never quoted. -/
theorem PlainScalar.of_numeral (h : IsNumeral t) {tag : Tag} (htag : Tag.ofScalar .full t = tag)
    {source : PlainValue} (hr : plainTree? t = some source) (ha : Agrees source source) :
    PlainScalar ⟨tag, t, none⟩ source := by
  have hspecial := h.forall (P := fun c => c ∉ '@' :: '\x60' :: specialChars) (by decide) (by decide)
  have hblank := h.forall (P := fun c => isBlank c = false) (by decide) (by decide)
  have hsign := h.forall (P := fun c => c ≠ formulaSign) (by decide) (by decide)
  have hstray : isStrayTruth t = false := by
    obtain ⟨c, r, ht, hd⟩ := h.head
    rcases ht with rfl | rfl
    · exact not_isStrayTruth
        (forall_digit (P := fun c => caseless c ∉ ['y', 'n', 'o', 't', 'f']) (by decide) hd) r
    · exact not_isStrayTruth (by decide) _
  exact {
    free := rfl
    tag := htag.symm
    plain := h.isPlainText
    sign := fun he => hsign _ (List.mem_of_mem_head? he) rfl
    edge := Text.trimEnd_eq fun d hd => hblank d (List.mem_of_getLast? hd)
    kept := not_needsQuotes hspecial hstray
    read := hr
    agrees := ha }

theorem isNumeral_ofInt (n : Int) : IsNumeral (Text.ofInt n) := by
  obtain ⟨c, r, hc, hd, -⟩ := exists_ofNat n.natAbs
  refine ⟨⟨c, r, ?_, hd⟩, fun d hm => ?_⟩
  · rw [Text.ofInt, hc]
    split
    · exact .inr rfl
    · exact .inl rfl
  · rw [Text.ofInt] at hm
    split at hm
    · rcases List.mem_cons.1 hm with rfl | hm
      · exact .inr (by decide)
      · exact .inl (isAsciiDigit_of_mem_ofNat hm)
    · exact .inl (isAsciiDigit_of_mem_ofNat hm)

theorem plainScalar_int {n : Int} (hn : isLongInteger n = false) :
    PlainScalar ⟨.int, Text.ofInt n, none⟩ (.int n) :=
  .of_numeral (isNumeral_ofInt n) (ofScalar_ofInt .full n) (plainTree?_int hn) rfl

theorem isNumeral_finite {negative : Bool} {m : Nat} {e : Int}
    (h : (Binary64.finite negative m e).Canonical) :
    IsNumeral (withPoint (Binary64.text specials (.finite negative m e))) := by
  obtain ⟨d, hd, htext, -⟩ := laidOut_finite h
  obtain ⟨c, r, hc, hdigit⟩ := hd.exists_head
  have hchars := hd.forall (P := fun c => isAsciiDigit c = true ∨ c ∈ ['.', 'e', '+', '-'])
    (by decide) (by decide)
  rw [htext]
  cases negative with
  | false => exact ⟨⟨c, r, .inl hc, hdigit⟩, hchars⟩
  | true =>
    refine ⟨⟨c, r, .inr (congrArg ('-' :: ·) hc), hdigit⟩, fun x hx => ?_⟩
    rcases List.mem_cons.1 hx with rfl | hx
    · exact .inr (by decide)
    · exact hchars x hx

theorem plainScalar_float {x : Binary64} (hx : x.Canonical) :
    PlainScalar ⟨.float, withPoint (x.text specials), none⟩ (.float x) := by
  cases x with
  | finite negative m e =>
    exact .of_numeral (isNumeral_finite hx) (ofScalar_float hx .full) (plainTree?_float hx) rfl
  | nan =>
    exact {
      free := rfl
      tag := by decide
      plain := by decide
      sign := by decide
      edge := by decide
      kept := not_needsQuotes (by decide) (by decide)
      read := rfl
      agrees := rfl }
  | infinite negative =>
    exact {
      free := rfl
      tag := by cases negative <;> decide
      plain := by cases negative <;> decide
      sign := by cases negative <;> decide
      edge := by cases negative <;> decide
      kept := not_needsQuotes (by cases negative <;> decide) (by cases negative <;> decide)
      read := by cases negative <;> rfl
      agrees := rfl }

theorem plainScalar_bool (b : Bool) :
    PlainScalar ⟨.bool, if b then "true".toList else "false".toList, none⟩ (.bool b) where
  free := rfl
  tag := by cases b <;> rfl
  plain := by cases b <;> decide
  sign := by cases b <;> decide
  edge := by cases b <;> decide
  kept := not_needsQuotes (by cases b <;> decide) (by cases b <;> decide)
  read := plainTree?_bool b
  agrees := rfl

end LineEnd

end Yaml

end ModernControls
