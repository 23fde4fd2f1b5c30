import ModernControls.Proofs.Decimal.Digits
import ModernControls.Proofs.Yaml.OutlineDrafts
import ModernControls.Yaml.Layout.Tree

/-!
# Numbers and truth values in scalars

The text of a number or a truth value as the layout writes it has the tag of its kind, and is read
as what it was made of.

Results:
- `plainTree?_int`: an integer with not too many digits is read as itself;
- `plainTree?_bool`: so is a truth value.
-/
namespace ModernControls.Yaml

/-! ## Integers -/

theorem withoutLines_eq {t : Text} (h : ∀ c ∈ t, c ≠ '_') : Number.withoutLines t = t := by
  rw [Number.withoutLines, List.filter_eq_self]
  exact fun c hc => by simpa using h c hc

theorem not_line {c : Char} (h : isAsciiDigit c = true) : c ≠ '_' :=
  forall_digit (P := fun c => c ≠ '_') (by decide) h

theorem isLongInteger_eq_false {n : Int} (h : isLongInteger n = false) :
    (Text.ofNat n.natAbs).length ≤ mostDigits := by
  simpa [isLongInteger] using h

theorem unsignedInteger_ofNat {n : Nat} (h : (Text.ofNat n).length ≤ mostDigits) :
    Number.unsignedInteger (Text.ofNat n) = .ok (n : Int) := by
  obtain ⟨c, r, hc, hd, hr, hzero⟩ := exists_ofNat n
  by_cases h0 : n = 0
  · subst h0
    rfl
  · have hne : c ≠ '0' := fun he => head_ofNat h0 (by rw [hc, he]; rfl)
    have hcolon : (Text.ofNat n).contains ':' = false := by
      rw [Bool.eq_false_iff, ne_eq, List.contains_iff_mem]
      intro hm
      exact forall_digit (P := fun c => c ≠ ':') (by decide) (isAsciiDigit_of_mem_ofNat hm) rfl
    rw [Number.unsignedInteger.eq_def]
    split
    · next heq => exact absurd (List.cons.inj (hc.symm.trans heq)).1 hne
    · next heq => exact absurd (List.cons.inj (hc.symm.trans heq)).1 hne
    · next heq => exact absurd (List.cons.inj (hc.symm.trans heq)).1 hne
    · next heq => exact absurd (List.cons.inj (hc.symm.trans heq)).1 hne
    · next heq => exact absurd heq (ofNat_ne_nil n)
    · rw [hcolon, integer?_ofNat h]
      rfl

/-- The digits of an integer, with its sign, are read as the integer. -/
theorem integer_ofInt {n : Int} (h : isLongInteger n = false) :
    Number.integer (Text.ofInt n) = .ok n := by
  have hlen := isLongInteger_eq_false h
  obtain ⟨c, r, hc, hd, -⟩ := exists_ofNat n.natAbs
  have hlines : Number.withoutLines (Text.ofInt n) = Text.ofInt n := by
    refine withoutLines_eq fun d hm => ?_
    rw [Text.ofInt] at hm
    split at hm
    · rcases List.mem_cons.1 hm with rfl | hm
      · decide
      · exact not_line (isAsciiDigit_of_mem_ofNat hm)
    · exact not_line (isAsciiDigit_of_mem_ofNat hm)
  rw [Number.integer, hlines]
  by_cases hn : n < 0
  · have htext : Text.ofInt n = '-' :: Text.ofNat n.natAbs := if_pos hn
    rw [htext]
    simp only [List.isEmpty_cons, Bool.false_eq_true, if_false, takeSign, bind, Except.bind,
      unsignedInteger_ofNat hlen, if_true]
    exact congrArg Except.ok (by omega)
  · have htext : Text.ofInt n = Text.ofNat n.natAbs := if_neg hn
    have hempty : (Text.ofNat n.natAbs).isEmpty = false := by
      rw [hc]
      rfl
    have hsign : takeSign (Text.ofNat n.natAbs) = (false, Text.ofNat n.natAbs) :=
      hc ▸ takeSign_digit hd r
    rw [htext]
    simp only [hempty, Bool.false_eq_true, if_false, hsign, bind, Except.bind,
      unsignedInteger_ofNat hlen]
    exact congrArg Except.ok (by omega)

theorem unsigned_ofInt (n : Int) : Tag.unsigned (Text.ofInt n) = Text.ofNat n.natAbs := by
  obtain ⟨c, r, hc, hd, -⟩ := exists_ofNat n.natAbs
  rw [Text.ofInt]
  split
  · rfl
  · rw [hc, Tag.unsigned, takeSign_digit hd]

theorem isUnsignedInt_ofNat (n : Nat) : Tag.isUnsignedInt (Text.ofNat n) = true := by
  obtain ⟨c, r, hc, hd, hr, hzero⟩ := exists_ofNat n
  have hdrop : r.dropWhile Tag.isDigitOrLine = [] :=
    List.dropWhile_eq_nil_iff.2 fun d hm => by simp [Tag.isDigitOrLine, hr d hm]
  rw [hc]
  by_cases h : c = '0'
  · rw [hzero h, h]
    rfl
  · rw [Tag.isUnsignedInt.eq_def]
    split
    · next heq => exact absurd (List.cons.inj heq).1 h
    · next heq =>
      obtain ⟨rfl, rfl⟩ := List.cons.inj heq
      rw [hd, hdrop]
      rfl
    · next heq => cases heq

theorem not_isUnsignedFraction_ofNat (n : Nat) :
    Tag.isUnsignedFraction (Text.ofNat n) = false := by
  obtain ⟨c, r, hc, -, hr, -⟩ := exists_ofNat n
  have hdrop : r.dropWhile Tag.isDigitOrLine = [] :=
    List.dropWhile_eq_nil_iff.2 fun d hm => by simp [Tag.isDigitOrLine, hr d hm]
  rw [hc, Tag.isUnsignedFraction, hdrop]
  simp [Tag.afterSixties]

theorem ofInt_head (n : Int) : ∃ c r, Text.ofInt n = c :: r ∧ (c = '-' ∨ isAsciiDigit c = true) := by
  obtain ⟨c, r, hc, hd, -⟩ := exists_ofNat n.natAbs
  rw [Text.ofInt]
  split
  · exact ⟨_, _, rfl, .inl rfl⟩
  · exact ⟨c, r, hc, .inr hd⟩

/-- What holds of the minus and of the digits holds of the characters of an integer. -/
theorem forall_ofInt {P : Char → Prop} (minus : P '-') (digit : ∀ d < 10, P d.digitChar) (n : Int) :
    ∀ c ∈ Text.ofInt n, P c := by
  intro c hc
  rw [Text.ofInt] at hc
  split at hc
  · rcases List.mem_cons.1 hc with rfl | hc
    · exact minus
    · exact forall_digit digit (isAsciiDigit_of_mem_ofNat hc)
  · exact forall_digit digit (isAsciiDigit_of_mem_ofNat hc)

/-- No text that begins with a minus or a digit is a word for a truth value. -/
theorem not_truthWord {c : Char} (h : c = '-' ∨ isAsciiDigit c = true) (r : Text) :
    Tag.truthWords.any (·.1 = c :: r) = false := by
  have hheads : ∀ w ∈ Tag.truthWords, ∃ d ∈ w.1.head?, d ≠ '-' ∧ isAsciiDigit d = false := by decide
  rw [List.any_eq_false]
  intro w hw he
  obtain ⟨d, hd, h1, h2⟩ := hheads w hw
  rw [of_decide_eq_true he] at hd
  obtain rfl : c = d := by simpa using hd
  rcases h with rfl | h
  · exact h1 rfl
  · rw [h2] at h; cases h

theorem ofScalar_ofInt (schema : Tag.Schema) (n : Int) :
    Tag.ofScalar schema (Text.ofInt n) = .int := by
  obtain ⟨c, r, hc, hd⟩ := ofInt_head n
  have hfeed : (Text.ofInt n).getLast? ≠ some '\n' := fun h =>
    forall_ofInt (P := fun c => c ≠ '\n') (by decide) (by decide) n _ (List.mem_of_getLast? h) rfl
  have hpoint : ∀ t, Text.ofInt n ≠ '.' :: t := fun t ht =>
    forall_ofInt (P := fun c => c ≠ '.') (by decide) (by decide) n '.' (by rw [ht]; simp) rfl
  have hpoint' : ∀ t, Text.ofNat n.natAbs ≠ '.' :: t := fun t ht =>
    forall_digit (P := fun c => c ≠ '.') (by decide)
      (isAsciiDigit_of_mem_ofNat (n := n.natAbs) (by rw [ht]; exact List.mem_cons_self)) rfl
  have hfraction : Tag.isFraction (Text.ofInt n) = false := by
    rw [Tag.isFraction, unsigned_ofInt, not_isUnsignedFraction_ofNat]
    simp only [hpoint, hpoint', decide_false, List.any_eq_false, Bool.false_or, Bool.or_eq_false_iff]
    · exact ⟨⟨by simp, by simp⟩, trivial⟩
    · exact fun _ _ => hpoint _
  have hempty : (Text.ofInt n).isEmpty = false := by
    rw [hc]
    rfl
  have htruth := not_truthWord hd r
  rw [← hc] at htruth
  rw [Tag.ofScalar, hempty, if_neg (by decide), if_neg fun h => hfeed h.2, Tag.ofWord, htruth,
    hfraction, unsigned_ofInt, isUnsignedInt_ofNat]
  rfl

variable {α : Type}

theorem plainTree?_int {n : Int} (h : isLongInteger n = false) :
    (plainTree? (Text.ofInt n) : Option (Tree α)) = some (.int n) := by
  rw [plainTree?, ofScalar_ofInt, integer_ofInt h]
  rfl

/-! ## Truth values -/

theorem plainTree?_bool (b : Bool) :
    (plainTree? (if b then "true".toList else "false".toList) : Option (Tree α)) = some (.bool b) := by
  cases b <;> rfl

end ModernControls.Yaml
