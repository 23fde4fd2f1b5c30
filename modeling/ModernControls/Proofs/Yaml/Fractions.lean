import ModernControls.Proofs.Decimal.Written
import ModernControls.Proofs.Yaml.Numbers

/-!
# Fractions in scalars

The text of a number of the binary64 format, with its point, has the tag of its kind and is read as
the number.

Results:
- `exists_layOut`: digits with a power of ten are laid out around a point, and mean the same there;
- `plainTree?_float`: a number of the format is read as itself.
-/
namespace ModernControls.Yaml

open Binary64 Layout

/-! ## Digits with a power of ten -/

/-- The digits of an exponent, at least two of them. -/
def exponentDigits (n : Nat) : Text :=
  if (Text.ofNat n).length < 2 then '0' :: Text.ofNat n else Text.ofNat n

theorem exponentDigits_digits (n : Nat) : ∀ x ∈ exponentDigits n, isAsciiDigit x = true := by
  intro x hx
  rw [exponentDigits] at hx
  split at hx
  · rcases List.mem_cons.1 hx with rfl | hx
    · decide
    · exact isAsciiDigit_of_mem_ofNat hx
  · exact isAsciiDigit_of_mem_ofNat hx

theorem exponentDigits_ne_nil (n : Nat) : exponentDigits n ≠ [] := by
  rw [exponentDigits]
  split
  · simp
  · exact ofNat_ne_nil n

theorem natIn?_exponentDigits (n : Nat) : natIn? 10 (exponentDigits n) = some n := by
  have hn : digitsFrom 0 (Text.ofNat n) = some n := by
    rw [digitsFrom, ← natIn?_eq (ofNat_ne_nil n), natIn?_ofNat]
  rw [natIn?_eq (exponentDigits_ne_nil n), exponentDigits]
  split
  · exact (digitsFrom_padded 1 (Text.ofNat n)).trans hn
  · exact hn

/-- The exponent of a decimal as it is written. -/
def exponentText (e : Int) : Text :=
  'e' :: (if e < 0 then '-' else '+') :: exponentDigits e.natAbs

theorem isExponent_exponentText (e : Int) : DecimalText.IsExponent (exponentText e) := by
  refine .inr ⟨_, _, rfl, ?_, exponentDigits_ne_nil _, exponentDigits_digits _⟩
  split
  · exact .inr rfl
  · exact .inl rfl

theorem exponent?_exponentText (e : Int) : exponent? (exponentText e) = some e := by
  have hn := natIn?_exponentDigits e.natAbs
  rw [exponentText, exponent?, if_pos (.inl rfl)]
  by_cases he : e < 0
  · rw [if_pos he]
    simp only [takeSign, hn]
    exact congrArg some (by simp only [if_true]; omega)
  · rw [if_neg he]
    simp only [takeSign, hn]
    exact congrArg some (by simp only [Bool.false_eq_true, if_false]; omega)

/-- Whether digits with a power of ten mean what a text does that has a point. -/
def LaidOut (c : Nat) (power : Int) (t : Text) : Prop :=
  ∃ d : DecimalText, d.WellFormed ∧ t = d.text ∧ fraction? d.text = some (ofDecimal false c power)

theorem LaidOut.mk {c n : Nat} {e power : Int} {d : DecimalText} (h : d.WellFormed)
    (hc : digitsFrom 0 (d.whole ++ d.part) = some n) (he : exponent? d.exponent = some e)
    (hv : ofDecimal false n (e - d.part.length) = ofDecimal false c power) :
    LaidOut c power d.text :=
  ⟨d, h, rfl, (DecimalText.fraction?_text h hc he).trans (congrArg some hv)⟩

theorem withPoint_of_not_mem {t : Text} (h : 'e' ∉ t) : withPoint t = t := by
  rw [withPoint, Text.cut_of_not_mem h]

theorem withPoint_exponent {a b : Text} (ha : 'e' ∉ a) : withPoint (a ++ 'e' :: b)
    = if a.contains '.' then a ++ 'e' :: b else a ++ '.' :: '0' :: 'e' :: b := by
  rw [withPoint, Text.cut_append ha]

variable {digits : Text} {c : Nat}

theorem not_mem_digits (hd : ∀ x ∈ digits, isAsciiDigit x = true) {x : Char}
    (hx : isAsciiDigit x = false) : x ∉ digits := fun hm => by
  rw [hd x hm] at hx
  cases hx

theorem withPoint_text {d : DecimalText} (hw : d.WellFormed) (he : d.exponent = []) :
    withPoint d.text = d.text := by
  refine withPoint_of_not_mem fun hm => ?_
  rw [DecimalText.text, he, List.append_nil] at hm
  rcases List.mem_append.1 hm with hm | hm
  · exact not_mem_digits hw.whole (by decide) hm
  · rcases List.mem_cons.1 hm with hm | hm
    · exact absurd hm (by decide)
    · exact not_mem_digits hw.part (by decide) hm

/-- Digits around a point without an exponent stay as they are. -/
theorem LaidOut.plain {whole part : Text} {n : Nat} {power : Int} (hne : whole ≠ [])
    (hwhole : ∀ x ∈ whole, isAsciiDigit x = true) (hpart : ∀ x ∈ part, isAsciiDigit x = true)
    (hn : digitsFrom 0 (whole ++ part) = some n)
    (hv : ofDecimal false n (0 - part.length) = ofDecimal false c power) :
    LaidOut c power (withPoint (whole ++ '.' :: part)) := by
  have hw : DecimalText.WellFormed ⟨whole, part, []⟩ := ⟨hne, hwhole, hpart, .inl rfl⟩
  have htext : whole ++ '.' :: part = DecimalText.text ⟨whole, part, []⟩ := by
    rw [DecimalText.text, List.append_nil]
  rw [htext, withPoint_text hw rfl]
  exact .mk hw hn rfl hv

theorem zero_digits (k : Nat) : ∀ x ∈ List.replicate k '0', isAsciiDigit x = true := by
  intro x hx
  obtain ⟨-, rfl⟩ := List.mem_replicate.1 hx
  decide

theorem digits_append {a b : Text} (ha : ∀ x ∈ a, isAsciiDigit x = true)
    (hb : ∀ x ∈ b, isAsciiDigit x = true) : ∀ x ∈ a ++ b, isAsciiDigit x = true :=
  fun x hx => (List.mem_append.1 hx).elim (ha x) (hb x)

/-- Digits below the point. -/
theorem laidOut_below (hd : ∀ x ∈ digits, isAsciiDigit x = true)
    (hc : digitsFrom 0 digits = some c) (zeros : Nat) :
    LaidOut c (-(zeros + digits.length))
      (withPoint ('0' :: '.' :: (List.replicate zeros '0' ++ digits))) := by
  refine LaidOut.plain (List.cons_ne_nil '0' []) (zero_digits 1)
    (digits_append (zero_digits zeros) hd) (n := c) ?_ ?_
  · rw [← List.append_assoc]
    exact (digitsFrom_padded (zeros + 1) digits).trans hc
  · congr 1
    simp only [List.length_append, List.length_replicate]
    omega

/-- Digits above the point, perhaps with zeros after them. -/
theorem laidOut_above (hne : digits ≠ []) (hd : ∀ x ∈ digits, isAsciiDigit x = true)
    (hc : digitsFrom 0 digits = some c) (zeros : Nat) :
    LaidOut c zeros (withPoint (digits ++ List.replicate zeros '0' ++ ['.', '0'])) := by
  refine LaidOut.plain (by simp [hne]) (digits_append hd (zero_digits zeros))
    (show ∀ x ∈ ['0'], isAsciiDigit x = true from zero_digits 1) (n := c * 10 ^ (zeros + 1)) ?_ ?_
  · rw [List.append_assoc]
    exact (congrArg (fun z => digitsFrom 0 (digits ++ z)) List.replicate_succ'.symm).trans
      (digitsFrom_shifted hc (zeros + 1))
  · rw [ofDecimal_congr]
    congr 1
    simp only [List.length_singleton]
    omega

/-- Digits on both sides of the point. -/
theorem laidOut_around (hd : ∀ x ∈ digits, isAsciiDigit x = true)
    (hc : digitsFrom 0 digits = some c) {place : Nat} (hplace : 0 < place)
    (hlt : place ≤ digits.length) :
    LaidOut c (place - digits.length) (withPoint (digits.take place ++ '.' :: digits.drop place)) := by
  refine LaidOut.plain ?_ (fun x hx => hd x (List.mem_of_mem_take hx))
    (fun x hx => hd x (List.mem_of_mem_drop hx)) (n := c) ?_ ?_
  · intro hnil
    have := congrArg List.length hnil
    rw [List.length_take, List.length_nil] at this
    omega
  · rw [List.take_append_drop]
    exact hc
  · congr 1
    rw [List.length_drop]
    omega

/-- One digit above the point, the others below it, and an exponent. -/
theorem laidOut_exponent {d : Char} {rest : Text} (hd : ∀ x ∈ d :: rest, isAsciiDigit x = true)
    (hc : digitsFrom 0 (d :: rest) = some c) (e : Int) :
    LaidOut c (e - rest.length)
      (withPoint ((match d :: rest with
        | [d] => [d]
        | d :: rest => d :: '.' :: rest
        | [] => []) ++ exponentText e)) := by
  have hx := isExponent_exponentText e
  have he := exponent?_exponentText e
  have hwhole : ∀ x ∈ [d], isAsciiDigit x = true := fun x h =>
    hd x (List.mem_cons.2 (.inl (List.mem_singleton.1 h)))
  have hrest : ∀ x ∈ rest, isAsciiDigit x = true := fun x h => hd x (List.mem_cons_of_mem _ h)
  have hone : 'e' ∉ [d] := not_mem_digits hwhole (by decide)
  cases rest with
  | nil =>
    have hpoint : [d].contains '.' = false := by
      rw [Bool.eq_false_iff, ne_eq, List.contains_iff_mem]
      exact not_mem_digits hwhole (by decide)
    dsimp only
    rw [exponentText, withPoint_exponent hone, hpoint]
    refine LaidOut.mk (d := ⟨[d], ['0'], exponentText e⟩) (n := c * 10 ^ 1)
      ⟨by simp, hwhole, zero_digits 1, hx⟩ (digitsFrom_shifted hc 1) he ?_
    rw [ofDecimal_congr]
    congr 1
    simp only [List.length_singleton, List.length_nil]
    omega
  | cons a rest =>
    have hno : 'e' ∉ d :: '.' :: a :: rest := by
      intro hm
      rcases List.mem_cons.1 hm with hm | hm
      · exact hone (List.mem_singleton.2 hm)
      · rcases List.mem_cons.1 hm with hm | hm
        · exact absurd hm (by decide)
        · exact not_mem_digits hrest (by decide) hm
    dsimp only
    rw [exponentText, withPoint_exponent hno, if_pos (by simp)]
    exact LaidOut.mk (d := ⟨[d], a :: rest, exponentText e⟩) (n := c)
      ⟨by simp, hwhole, hrest, hx⟩ hc he rfl

/-- Digits with a power of ten are laid out around a point. -/
theorem exists_layOut (hne : digits ≠ []) (hd : ∀ x ∈ digits, isAsciiDigit x = true)
    (hc : digitsFrom 0 digits = some c) (power : Int) :
    LaidOut c power (withPoint (layOut digits power)) := by
  have hlen : 0 < digits.length := List.length_pos_iff.2 hne
  rw [layOut.eq_def]
  by_cases hnear : -4 < power + digits.length ∧ power + digits.length ≤ 16
  · rw [if_pos hnear]
    by_cases hpoint : power + digits.length ≤ 0
    · rw [if_pos hpoint]
      convert laidOut_below hd hc (-(power + digits.length)).toNat using 1
      omega
    · rw [if_neg hpoint]
      by_cases hlong : (digits.length : Int) ≤ power + digits.length
      · rw [if_pos hlong]
        convert laidOut_above hne hd hc ((power + digits.length).toNat - digits.length) using 1
        omega
      · rw [if_neg hlong]
        convert laidOut_around hd hc (show 0 < (power + digits.length).toNat by omega) (by omega)
          using 1
        omega
  · rw [if_neg hnear]
    obtain ⟨d, rest, rfl⟩ := List.exists_cons_of_ne_nil hne
    convert laidOut_exponent hd hc (power + (d :: rest).length - 1) using 1
    · rw [List.length_cons]
      push_cast
      omega
    · rw [List.append_assoc]
      rfl

/-! ## Numbers of the format -/

theorem withPoint_minus (t : Text) : withPoint ('-' :: t) = '-' :: withPoint t := by
  rw [withPoint, withPoint, Text.cut, if_neg (by decide)]
  obtain ⟨a, b⟩ := Text.cut 'e' t
  cases b with
  | none => rfl
  | some exponent =>
    have hcontains : ('-' :: a).contains '.' = a.contains '.' := by simp
    dsimp only
    rw [hcontains]
    split <;> rfl

/-- The text of a finite number without its sign. -/
theorem laidOut_finite {negative : Bool} {m : Nat} {e : Int}
    (h : Canonical (.finite negative m e)) : ∃ d : DecimalText, d.WellFormed
      ∧ withPoint (Binary64.text specials (.finite negative m e))
        = (if negative then '-' :: d.text else d.text)
      ∧ fraction? d.text = some (.finite false m e) := by
  have hsign : ∀ body : Text, withPoint (if negative then '-' :: body else body)
      = if negative then '-' :: withPoint body else withPoint body := by
    intro body
    cases negative with
    | true => exact withPoint_minus body
    | false => rfl
  rw [Binary64.text, hsign]
  by_cases hm : m = 0
  · obtain ⟨-, -, -, hbound⟩ := h
    have hleast : e = leastExponent := hbound.resolve_left (by rw [hm]; decide)
    rw [if_pos hm, hm, hleast]
    exact ⟨⟨['0'], ['0'], []⟩, ⟨by simp, by decide, by decide, .inl rfl⟩, rfl, rfl⟩
  · have hvalue := ofDecimal_shortest_of_canonical (Nat.pos_of_ne_zero hm) h
    have hc : (shortest m e).1 ≠ 0 := by
      intro hz
      rw [hz, ofDecimal, if_pos rfl] at hvalue
      exact hm (Binary64.finite.inj hvalue).2.1.symm
    obtain ⟨n, hne, hdigits, hn, hvalue'⟩ := digits_withoutTrailingZeros hc (shortest m e).2
    obtain ⟨d, hd, htext, hread⟩ := exists_layOut hne hdigits hn
      (withoutTrailingZeros (Text.ofNat (shortest m e).1) (shortest m e).2).2
    rw [if_neg hm]
    exact ⟨d, hd, by rw [← htext], by rw [hread, hvalue', hvalue]⟩

section Read

variable {d : DecimalText}

theorem dropWhile_digits {a b : Text} (ha : ∀ c ∈ a, isAsciiDigit c = true)
    (hb : ∀ c ∈ b.head?, Tag.isDigitOrLine c = false) :
    (a ++ b).dropWhile Tag.isDigitOrLine = b := by
  rw [List.dropWhile_append_of_pos fun c hc => by simp [Tag.isDigitOrLine, ha c hc]]
  cases b with
  | nil => rfl
  | cons c b => rw [List.dropWhile_cons_of_neg (by simp [hb c rfl])]

theorem isExponentOrNothing_of {t : Text} (h : DecimalText.IsExponent t) :
    Tag.isExponentOrNothing t = true ∧ ∀ c ∈ t.head?, Tag.isDigitOrLine c = false := by
  rcases h with rfl | ⟨sign, digits, rfl, hs, hne, hd⟩
  · exact ⟨rfl, fun c hc => nomatch hc⟩
  · refine ⟨?_, fun c hc => ?_⟩
    · have hall : digits.all isAsciiDigit = true := List.all_eq_true.2 hd
      rw [Tag.isExponentOrNothing, hall]
      rcases hs with rfl | rfl <;> simp [hne]
    · obtain rfl : 'e' = c := by simpa using hc
      decide

theorem isUnsignedFraction_text (h : d.WellFormed) : Tag.isUnsignedFraction d.text = true := by
  obtain ⟨c, r, hc⟩ := List.exists_cons_of_ne_nil h.nonempty
  obtain ⟨hexp, hhead⟩ := isExponentOrNothing_of h.exponent
  have hdigit : isAsciiDigit c = true := h.whole c (hc ▸ List.mem_cons_self)
  have hr : ∀ x ∈ r, isAsciiDigit x = true := fun x hx => h.whole x (hc ▸ List.mem_cons_of_mem _ hx)
  have hpoint : ∀ x ∈ ('.' :: (d.part ++ d.exponent)).head?, Tag.isDigitOrLine x = false :=
    fun x hx => by
      obtain rfl : '.' = x := by simpa using hx
      decide
  rw [DecimalText.text, hc, List.cons_append, Tag.isUnsignedFraction, hdigit,
    dropWhile_digits hr hpoint, Bool.true_and]
  exact (congrArg Tag.isExponentOrNothing (dropWhile_digits h.part hhead)).trans hexp

theorem takeSign_text (h : d.WellFormed) : takeSign d.text = (false, d.text) := by
  obtain ⟨c, r, hc, hd⟩ := h.exists_head
  rw [hc]
  exact takeSign_digit hd r

variable {t : Text}

theorem isFraction_text (h : d.WellFormed) (ht : t = d.text ∨ t = '-' :: d.text) :
    Tag.isFraction t = true := by
  have hunsigned : Tag.unsigned t = d.text := by
    rcases ht with rfl | rfl
    · rw [Tag.unsigned, takeSign_text h]
    · rfl
  simp [Tag.isFraction, hunsigned, isUnsignedFraction_text h]

/-- What holds of digits and of the other characters of a decimal holds of the text of a number. -/
theorem forall_text {P : Char → Prop} (h : d.WellFormed) (ht : t = d.text ∨ t = '-' :: d.text)
    (digit : ∀ d < 10, P d.digitChar) (other : ∀ c ∈ ['.', 'e', '+', '-'], P c) : ∀ c ∈ t, P c := by
  have hall := h.forall digit other
  rcases ht with rfl | rfl
  · exact hall
  · intro c hc
    rcases List.mem_cons.1 hc with rfl | hc
    · exact other _ (by decide)
    · exact hall c hc

theorem exists_head_text (h : d.WellFormed) (ht : t = d.text ∨ t = '-' :: d.text) :
    ∃ c r, t = c :: r ∧ (c = '-' ∨ isAsciiDigit c = true) := by
  rcases ht with rfl | rfl
  · obtain ⟨c, r, hc, hd⟩ := h.exists_head
    exact ⟨c, r, hc, .inr hd⟩
  · exact ⟨_, _, rfl, .inl rfl⟩

theorem ofScalar_text (h : d.WellFormed) (ht : t = d.text ∨ t = '-' :: d.text)
    (schema : Tag.Schema) : Tag.ofScalar schema t = .float := by
  obtain ⟨c, r, hc, hd⟩ := exists_head_text h ht
  have hfeed : t.getLast? ≠ some '\n' := fun hl =>
    forall_text (P := fun c => c ≠ '\n') h ht (by decide) (by decide) _ (List.mem_of_getLast? hl) rfl
  have htruth : Tag.truthWords.any (·.1 = t) = false := hc ▸ not_truthWord hd r
  have hempty : t.isEmpty = false := by
    rw [hc]
    rfl
  rw [Tag.ofScalar, hempty, if_neg (by decide), if_neg fun hl => hfeed hl.2, Tag.ofWord, htruth,
    isFraction_text h ht]
  rfl

theorem unsignedFraction_text (h : d.WellFormed) {x : Binary64} (hx : fraction? d.text = some x) :
    Number.unsignedFraction d.text = .ok x := by
  obtain ⟨c, r, hc, hd⟩ := h.exists_head
  have hname : ∀ name : Text, name.head?.any isAsciiDigit = false → d.text ≠ name := by
    rintro name hn rfl
    rw [hc] at hn
    simp [hd] at hn
  have hcolon : d.text.contains ':' = false := by
    rw [Bool.eq_false_iff, ne_eq, List.contains_iff_mem]
    exact fun hm => h.forall (P := fun c => c ≠ ':') (by decide) (by decide) _ hm rfl
  rw [Number.unsignedFraction, if_neg (hname _ (by decide)), if_neg (hname _ (by decide)), hcolon, hx]
  rfl

theorem fraction_text (h : d.WellFormed) {x : Binary64} (hx : fraction? d.text = some x)
    (negative : Bool) : Number.fraction (if negative then '-' :: d.text else d.text)
      = .ok (if negative then x.negate else x) := by
  have ht : (if negative then '-' :: d.text else d.text) = d.text
      ∨ (if negative then '-' :: d.text else d.text) = '-' :: d.text := by
    cases negative
    · exact .inl rfl
    · exact .inr rfl
  have hlines := withoutLines_eq (forall_text (P := fun c => c ≠ '_') h ht (by decide) (by decide))
  have hlow : Text.lowered (if negative then '-' :: d.text else d.text)
      = if negative then '-' :: d.text else d.text :=
    (List.map_congr_left (forall_text (P := fun c => c.toLower = c) h ht (by decide) (by decide))).trans
      (List.map_id _)
  have hsign : takeSign (if negative then '-' :: d.text else d.text) = (negative, d.text) := by
    cases negative
    · exact takeSign_text h
    · rfl
  have hempty : (if negative then '-' :: d.text else d.text : Text).isEmpty = false := by
    obtain ⟨c, r, hc, -⟩ := exists_head_text h ht
    rw [hc]
    rfl
  rw [Number.fraction, hlines, hlow]
  simp only [hempty, hsign, unsignedFraction_text h hx, bind, Except.bind, Bool.false_eq_true,
    if_false]

end Read

/-- A number of the format is read as itself. -/
theorem fraction_float {x : Binary64} (hx : x.Canonical) :
    Number.fraction (withPoint (x.text specials)) = .ok x := by
  cases x with
  | nan => rfl
  | infinite negative => cases negative <;> rfl
  | finite negative m e =>
    obtain ⟨d, hd, htext, hread⟩ := laidOut_finite hx
    rw [htext, fraction_text hd hread]
    cases negative <;> rfl

theorem ofScalar_float {x : Binary64} (hx : x.Canonical) (schema : Tag.Schema) :
    Tag.ofScalar schema (withPoint (x.text specials)) = .float := by
  cases x with
  | nan => cases schema <;> decide
  | infinite negative => cases negative <;> cases schema <;> decide
  | finite negative m e =>
    obtain ⟨d, hd, htext, -⟩ := laidOut_finite hx
    refine ofScalar_text hd ?_ schema
    rw [htext]
    cases negative
    · exact .inl rfl
    · exact .inr rfl

theorem plainTree?_float {α : Type} {x : Binary64} (hx : x.Canonical) :
    (plainTree? (withPoint (x.text specials)) : Option (Tree α)) = some (.float x) := by
  rw [plainTree?, ofScalar_float hx, fraction_float hx]
  cases x <;> rfl

end ModernControls.Yaml
