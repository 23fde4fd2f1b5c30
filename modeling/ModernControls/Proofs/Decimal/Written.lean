import ModernControls.Proofs.Decimal.Digits
import ModernControls.Proofs.Decimal.Rounding
import ModernControls.Proofs.Texts

/-!
# Decimals as they are written

The shortest text of a number has a point, and digits on either side of it, once a point is put
before a bare exponent. What such a text means does not depend on where its point stands.

Results:
- `DecimalText.fraction?_text`: digits around a point, with an exponent or not, are read as the
  decimal they mean;
- `digits_withoutTrailingZeros`: digits without the zeros at their end mean a smaller power of ten.
-/
namespace ModernControls

/-! ## Digits -/

/-- The number that digits before or after others stand for. -/
def digitsFrom (n : Nat) (t : Text) : Option Nat := t.foldlM (nextDigit 10) n

theorem digitIn?_digit {c : Char} (h : isAsciiDigit c = true) : ∃ d, digitIn? 10 c = some d :=
  forall_digit (P := fun c => ∃ d, digitIn? 10 c = some d) (fun d hd => ⟨d, shows_decimal d hd⟩) h

theorem exists_digitsFrom {t : Text} (h : ∀ c ∈ t, isAsciiDigit c = true) (n : Nat) :
    ∃ m, digitsFrom n t = some m := by
  induction t generalizing n with
  | nil => exact ⟨n, rfl⟩
  | cons c t ih =>
    obtain ⟨d, hd⟩ := digitIn?_digit (h c List.mem_cons_self)
    obtain ⟨m, hm⟩ := ih (fun c hc => h c (List.mem_cons_of_mem _ hc)) (n * 10 + d)
    refine ⟨m, ?_⟩
    rw [digitsFrom, List.foldlM_cons, nextDigit, hd]
    exact hm

theorem digitsFrom_append (n : Nat) (a b : Text) :
    digitsFrom n (a ++ b) = (digitsFrom n a).bind fun m => digitsFrom m b :=
  List.foldlM_append

theorem digitsFrom_zeros (n k : Nat) :
    digitsFrom n (List.replicate k '0') = some (n * 10 ^ k) := by
  induction k generalizing n with
  | zero => simp [digitsFrom]
  | succ k ih =>
    have hnext : nextDigit 10 n '0' = some (n * 10) := by
      rw [nextDigit, show digitIn? 10 '0' = some 0 from shows_decimal 0 (by decide)]
      rfl
    rw [List.replicate_succ, digitsFrom, List.foldlM_cons, hnext, Option.bind_eq_bind,
      Option.bind_some, ← digitsFrom, ih, Nat.pow_succ', Nat.mul_assoc]

/-- Zeros before digits do not count. -/
theorem digitsFrom_padded (k : Nat) (t : Text) :
    digitsFrom 0 (List.replicate k '0' ++ t) = digitsFrom 0 t := by
  rw [digitsFrom_append, digitsFrom_zeros, Nat.zero_mul]
  rfl

/-- Zeros after digits are powers of ten. -/
theorem digitsFrom_shifted {t : Text} {n : Nat} (h : digitsFrom 0 t = some n) (k : Nat) :
    digitsFrom 0 (t ++ List.replicate k '0') = some (n * 10 ^ k) := by
  rw [digitsFrom_append, h, Option.bind_some, digitsFrom_zeros]

theorem isDecimalDigit_of_isAsciiDigit {c : Char} (h : isAsciiDigit c = true) :
    isDecimalDigit c = true :=
  forall_digit (P := fun c => isDecimalDigit c = true) (by decide) h

theorem takeWhile_digits {a b : Text} (ha : ∀ c ∈ a, isAsciiDigit c = true)
    (hb : ∀ c ∈ b.head?, isDecimalDigit c = false) :
    (a ++ b).takeWhile isDecimalDigit = a ∧ (a ++ b).dropWhile isDecimalDigit = b := by
  induction a with
  | nil =>
    cases b with
    | nil => exact ⟨rfl, rfl⟩
    | cons c b =>
      have hc : isDecimalDigit c = false := hb c rfl
      simp [hc]
  | cons c a ih =>
    have hc := isDecimalDigit_of_isAsciiDigit (ha c List.mem_cons_self)
    obtain ⟨h1, h2⟩ := ih fun d hd => ha d (List.mem_cons_of_mem _ hd)
    simp [hc, h1, h2]

/-! ## Digits around a point -/

/-- Digits before a point, digits after it, and what follows them. -/
structure DecimalText where
  whole : Text
  part : Text
  exponent : Text

namespace DecimalText

/-- The parts one after the other, with the point. -/
def text (d : DecimalText) : Text := d.whole ++ '.' :: (d.part ++ d.exponent)

/-- Whether a text is an exponent with its sign, or nothing. -/
def IsExponent (t : Text) : Prop :=
  t = [] ∨ ∃ sign digits, t = 'e' :: sign :: digits ∧ (sign = '+' ∨ sign = '-') ∧ digits ≠ []
    ∧ ∀ c ∈ digits, isAsciiDigit c = true

/-- Whether the parts are digits and an exponent, with something before the point. -/
structure WellFormed (d : DecimalText) : Prop where
  nonempty : d.whole ≠ []
  whole : ∀ c ∈ d.whole, isAsciiDigit c = true
  part : ∀ c ∈ d.part, isAsciiDigit c = true
  exponent : IsExponent d.exponent

variable {d : DecimalText}

/-- What holds of digits and of the other characters of a decimal holds of all its characters. -/
theorem WellFormed.forall {P : Char → Prop} (h : d.WellFormed) (digit : ∀ d < 10, P d.digitChar)
    (other : ∀ c ∈ ['.', 'e', '+', '-'], P c) : ∀ c ∈ d.text, P c := by
  have hexp : ∀ c ∈ d.exponent, P c := by
    rcases h.exponent with he | ⟨sign, digits, he, hs, -, hd⟩
    · rw [he]
      exact fun c hc => nomatch hc
    · intro c hc
      rw [he] at hc
      rcases List.mem_cons.1 hc with rfl | hc
      · exact other _ (by decide)
      · rcases List.mem_cons.1 hc with rfl | hc
        · rcases hs with rfl | rfl
          · exact other _ (by decide)
          · exact other _ (by decide)
        · exact forall_digit digit (hd c hc)
  intro c hc
  rcases List.mem_append.1 hc with hc | hc
  · exact forall_digit digit (h.whole c hc)
  · rcases List.mem_cons.1 hc with rfl | hc
    · exact other _ (by decide)
    · rcases List.mem_append.1 hc with hc | hc
      · exact forall_digit digit (h.part c hc)
      · exact hexp c hc

theorem WellFormed.exists_head (h : d.WellFormed) :
    ∃ c r, d.text = c :: r ∧ isAsciiDigit c = true := by
  obtain ⟨c, r, hc⟩ := List.exists_cons_of_ne_nil h.nonempty
  refine ⟨c, r ++ '.' :: (d.part ++ d.exponent), ?_, h.whole c (hc ▸ List.mem_cons_self)⟩
  rw [text, hc]
  rfl

theorem head_exponent {t : Text} (h : IsExponent t) : ∀ c ∈ t.head?, isDecimalDigit c = false := by
  rcases h with rfl | ⟨sign, digits, rfl, -⟩
  · exact fun c hc => nomatch hc
  · intro c hc
    obtain rfl : 'e' = c := by simpa using hc
    decide

theorem lowered_text (h : d.WellFormed) : d.text.lowered = d.text := by
  have hlow := h.forall (P := fun c => c.toLower = c) (by decide) (by decide)
  rw [Text.lowered]
  exact (List.map_congr_left hlow).trans (List.map_id _)

/-- Digits around a point are read as the decimal that they mean. -/
theorem fraction?_text (h : d.WellFormed) {c : Nat} {e : Int}
    (hc : digitsFrom 0 (d.whole ++ d.part) = some c) (he : exponent? d.exponent = some e) :
    fraction? d.text = some (.ofDecimal false c (e - d.part.length)) := by
  obtain ⟨a, r, ha, hd⟩ := h.exists_head
  have hstrip : d.text.strip isSpacing = d.text :=
    Text.strip_eq (h.forall (P := fun c => isSpacing c = false) (by decide) (by decide))
  have hsign : takeSign d.text = (false, d.text) := ha ▸ takeSign_digit hd r
  have hname : ∀ name : Text, name.head?.any isAsciiDigit = false → d.text ≠ name := by
    rintro name hn rfl
    rw [ha] at hn
    simp [hd] at hn
  obtain ⟨hw1, hw2⟩ := takeWhile_digits (b := '.' :: (d.part ++ d.exponent)) h.whole
    fun c hc => by
      obtain rfl : '.' = c := by simpa using hc
      decide
  obtain ⟨hp1, hp2⟩ := takeWhile_digits (b := d.exponent) h.part (head_exponent h.exponent)
  have hnat : natIn? 10 (d.whole ++ d.part) = some c := by
    rw [natIn?_eq (by simp [h.nonempty])]
    exact hc
  rw [fraction?, hstrip, hsign]
  simp only [lowered_text h]
  rw [if_neg (not_or.2 ⟨hname _ (by decide), hname _ (by decide)⟩), if_neg (hname _ (by decide)),
    text, hw1, hw2]
  simp only [hp1, hp2, hnat, he]

end DecimalText

namespace Binary64

/-- Digits are those that stay and zeros. -/
theorem eq_withoutTrailingZeros (digits : Text) (power : Int) : ∃ zeros : Nat,
    digits = (withoutTrailingZeros digits power).1 ++ List.replicate zeros '0'
      ∧ (withoutTrailingZeros digits power).2 = power + zeros := by
  obtain ⟨r, rfl⟩ : ∃ r : Text, digits = r.reverse := ⟨digits.reverse, digits.reverse_reverse.symm⟩
  have hzeros : r.takeWhile (· = '0') = List.replicate (r.takeWhile (· = '0')).length '0' :=
    List.eq_replicate_iff.2 ⟨rfl, fun c hc => by
      simpa using List.all_eq_true.1 List.all_takeWhile c hc⟩
  refine ⟨(r.takeWhile (· = '0')).length, ?_, ?_⟩
  · have hsplit := (List.takeWhile_append_dropWhile (p := (· = '0')) (l := r)).symm
    rw [withoutTrailingZeros, List.reverse_reverse]
    dsimp only
    generalize hz : (r.takeWhile (· = '0')).length = z at hzeros
    generalize r.dropWhile (· = '0') = rest at hsplit
    rw [hzeros] at hsplit
    rw [hsplit, List.reverse_append, List.reverse_replicate]
    simp
  · rw [withoutTrailingZeros, List.reverse_reverse]

/-- Digits without the zeros at their end mean a smaller power of ten. -/
theorem digits_withoutTrailingZeros {c : Nat} (hc : c ≠ 0) (power : Int) : ∃ n,
    (withoutTrailingZeros (Text.ofNat c) power).1 ≠ []
      ∧ (∀ d ∈ (withoutTrailingZeros (Text.ofNat c) power).1, isAsciiDigit d = true)
      ∧ digitsFrom 0 (withoutTrailingZeros (Text.ofNat c) power).1 = some n
      ∧ ofDecimal false n (withoutTrailingZeros (Text.ofNat c) power).2 = ofDecimal false c power := by
  obtain ⟨zeros, hdigits, hpower⟩ := eq_withoutTrailingZeros (Text.ofNat c) power
  rw [hpower]
  generalize (withoutTrailingZeros (Text.ofNat c) power).1 = digits at hdigits
  have hread : digitsFrom 0 (Text.ofNat c) = some c := by
    rw [digitsFrom, ← natIn?_eq (ofNat_ne_nil c), natIn?_ofNat]
  have hall : ∀ d ∈ digits, isAsciiDigit d = true := fun d hd =>
    isAsciiDigit_of_mem_ofNat (n := c) (hdigits ▸ List.mem_append_left _ hd)
  obtain ⟨n, hn⟩ := exists_digitsFrom hall 0
  have hcn : c = n * 10 ^ zeros := by
    rw [hdigits, digitsFrom_shifted hn] at hread
    exact (Option.some.inj hread).symm
  refine ⟨n, ?_, hall, hn, ?_⟩
  · rintro rfl
    obtain rfl : 0 = n := Option.some.inj hn
    exact hc (by rw [hcn, Nat.zero_mul])
  · rw [hcn, ofDecimal_congr]

end Binary64

end ModernControls
