import ModernControls.Decimal.Reading
import ModernControls.Proofs.Texts

/-!
# Reading the digits of a number

The digits of a natural number in a base, read in that base, give the number again, with zeros
before them or not, and in capitals or not.

Results:
- `natIn?_ofNat`, `integer?_ofNat`: decimal digits are read as the number they were made of;
- `integer?_ofInt`, `isLongInteger_of_integer?`: the integers that are read are those with no more
  digits than may be read;
- `integer?_digits`, `natIn?_lt`: decimal digits are read unless there are too many of them, and a
  number has its digits for a bound;
- `natIn?_ofHex`, `natIn?_ofHex_raised`: so are hexadecimal digits filled with zeros.
-/
namespace ModernControls

/-- One digit more is read after those before it. -/
def nextDigit (base n : Nat) (c : Char) : Option Nat := (digitIn? base c).map (n * base + ·)

/-- A way of writing digits of a base that are read as what they are. -/
def Shows (base : Nat) (shape : Char → Char) : Prop :=
  ∀ d < base, digitIn? base (shape d.digitChar) = some d

instance (base : Nat) (shape : Char → Char) : Decidable (Shows base shape) :=
  inferInstanceAs (Decidable (∀ d < base, digitIn? base (shape d.digitChar) = some d))

theorem shows_decimal : Shows 10 id := by decide +kernel

theorem shows_hex : Shows 16 id := by decide +kernel

theorem shows_hex_raised : Shows 16 Char.toUpper := by decide +kernel

theorem natIn?_eq {base : Nat} {digits : Text} (h : digits ≠ []) :
    natIn? base digits = digits.foldlM (nextDigit base) 0 := by
  cases digits with
  | nil => exact absurd rfl h
  | cons => rfl

theorem mem_toDigits {base n : Nat} (hb : 1 < base) {c : Char} (h : c ∈ Nat.toDigits base n) :
    ∃ d < base, c = d.digitChar := by
  induction n using Nat.strongRecOn with
  | ind n ih =>
    rw [Nat.toDigits_eq_if hb] at h
    split at h
    · next hlt => exact ⟨n, hlt, List.mem_singleton.1 h⟩
    · next hle =>
      rcases List.mem_append.1 h with h | h
      · exact ih (n / base) (Nat.div_lt_self (by omega) hb) h
      · exact ⟨n % base, Nat.mod_lt _ (by omega), List.mem_singleton.1 h⟩

/-- Digits are read from the left, so the induction is on the number without its last digit. -/
theorem foldlM_toDigits {base : Nat} {shape : Char → Char} (hb : 1 < base)
    (hs : Shows base shape) (n : Nat) :
    ((Nat.toDigits base n).map shape).foldlM (nextDigit base) 0 = some n := by
  induction n using Nat.strongRecOn with
  | ind n ih =>
    rw [Nat.toDigits_eq_if hb]
    split
    · next hlt => simp [nextDigit, hs n hlt]
    · next hle =>
      have hlast := hs (n % base) (Nat.mod_lt _ (by omega))
      rw [List.map_append, List.foldlM_append, ih (n / base) (Nat.div_lt_self (by omega) hb)]
      simp only [List.map_cons, List.map_nil, List.foldlM_cons, List.foldlM_nil, nextDigit, hlast,
        Option.map_some, Option.bind_eq_bind, Option.bind_some, Option.pure_def]
      rw [Nat.mul_comm, Nat.div_add_mod]

theorem foldlM_zeros {base : Nat} {zero : Char} (h : digitIn? base zero = some 0) (k : Nat) :
    (List.replicate k zero).foldlM (nextDigit base) 0 = some 0 := by
  induction k with
  | zero => rfl
  | succ k ih => simpa [List.replicate_succ, nextDigit, h] using ih

theorem natIn?_padded {base : Nat} {shape : Char → Char} (hb : 1 < base) (hs : Shows base shape)
    (k n : Nat) :
    natIn? base ((List.replicate k '0' ++ Nat.toDigits base n).map shape) = some n := by
  have hz : digitIn? base (shape '0') = some 0 := hs 0 (by omega)
  rw [natIn?_eq (by simp [Nat.toDigits_ne_nil]), List.map_append, List.map_replicate,
    List.foldlM_append, foldlM_zeros hz]
  exact foldlM_toDigits hb hs n

theorem natIn?_ofNat (n : Nat) : natIn? 10 (Text.ofNat n) = some n := by
  have := natIn?_padded (by decide) shows_decimal 0 n
  simpa [Text.ofNat] using this

theorem isAsciiDigit_iff {c : Char} :
    isAsciiDigit c = true ↔ 0x30 ≤ c.toNat ∧ c.toNat ≤ 0x39 := by
  simp only [isAsciiDigit, Bool.and_eq_true, decide_eq_true_eq, Char.le_def,
    UInt32.le_iff_toNat_le]
  rfl

/-- What holds of the ten digits holds of every digit. -/
theorem forall_digit {P : Char → Prop} (h : ∀ d < 10, P d.digitChar) {c : Char}
    (hc : isAsciiDigit c = true) : P c := by
  rw [isAsciiDigit_iff] at hc
  have hchars : ∀ n < 10, Char.ofNat (n + 0x30) = n.digitChar := by decide
  have hd := hchars (c.toNat - 0x30) (by omega)
  rw [Nat.sub_add_cancel hc.1, Char.ofNat_toNat] at hd
  exact hd ▸ h _ (by omega)

theorem isAsciiDigit_of_mem_ofNat {n : Nat} {c : Char} (h : c ∈ Text.ofNat n) :
    isAsciiDigit c = true := by
  obtain ⟨d, hd, rfl⟩ := mem_toDigits (by decide) h
  exact (by decide : ∀ d < 10, isAsciiDigit d.digitChar = true) d hd

theorem ofNat_ne_nil (n : Nat) : Text.ofNat n ≠ [] := Nat.toDigits_ne_nil

/-- The digits of a number but zero do not begin with a zero. -/
theorem head_ofNat {n : Nat} (h : n ≠ 0) : (Text.ofNat n).head? ≠ some '0' := by
  rw [Text.ofNat]
  induction n using Nat.strongRecOn with
  | ind n ih =>
    rw [Nat.toDigits_eq_if (by decide)]
    split
    · next hlt =>
      have : ∀ d < 10, d ≠ 0 → d.digitChar ≠ '0' := by decide
      simpa using this n hlt h
    · next hle =>
      obtain ⟨c, r, hc⟩ := List.exists_cons_of_ne_nil (Nat.toDigits_ne_nil (n := n / 10) (b := 10))
      have := ih (n / 10) (by omega) (by omega)
      rwa [hc] at this ⊢

/-- The digits of a number begin with a digit, and with a zero only if there is no other. -/
theorem exists_ofNat (n : Nat) : ∃ c r, Text.ofNat n = c :: r ∧ isAsciiDigit c = true
    ∧ (∀ d ∈ r, isAsciiDigit d = true) ∧ (c = '0' → r = []) := by
  obtain ⟨c, r, h⟩ := List.exists_cons_of_ne_nil (ofNat_ne_nil n)
  have hd : ∀ d ∈ c :: r, isAsciiDigit d = true := fun d hm => isAsciiDigit_of_mem_ofNat (h ▸ hm)
  refine ⟨c, r, h, hd c List.mem_cons_self, fun d hm => hd d (List.mem_cons_of_mem _ hm), ?_⟩
  rintro rfl
  by_cases hn : n = 0
  · subst hn
    exact (List.cons.inj h).2.symm
  · exact absurd (by rw [h]; rfl) (head_ofNat hn)

theorem takeSign_digit {c : Char} (h : isAsciiDigit c = true) (r : Text) :
    takeSign (c :: r) = (false, c :: r) := by
  have h1 := forall_digit (P := fun c => c ≠ '-') (by decide) h
  have h2 := forall_digit (P := fun c => c ≠ '+') (by decide) h
  rw [takeSign.eq_def]
  split
  · next heq => exact absurd (List.cons.inj heq).1 h1
  · next heq => exact absurd (List.cons.inj heq).1 h2
  · rfl

/-- Digits are read as a decimal integer unless there are too many of them. -/
theorem integer?_digits {t : Text} (hne : t ≠ []) (hd : ∀ c ∈ t, isAsciiDigit c = true)
    (hl : t.length ≤ mostDigits) : integer? 10 t = (natIn? 10 t).map Int.ofNat := by
  obtain ⟨c, r, rfl⟩ := List.exists_cons_of_ne_nil hne
  have hstrip : Text.strip isSpacing (c :: r) = c :: r :=
    Text.strip_eq fun d hm => forall_digit (P := fun d => isSpacing d = false) (by decide) (hd d hm)
  rw [integer?, hstrip, takeSign_digit (hd c List.mem_cons_self)]
  dsimp only
  rw [withoutBase_of_no_letters rfl, if_neg (by simpa using hl)]
  cases natIn? 10 (c :: r) <;> rfl

theorem integer?_ofNat {n : Nat} (h : (Text.ofNat n).length ≤ mostDigits) :
    integer? 10 (Text.ofNat n) = some (n : Int) := by
  rw [integer?_digits (ofNat_ne_nil n) (fun c hc => isAsciiDigit_of_mem_ofNat hc) h, natIn?_ofNat]
  rfl

theorem integer?_ofInt {n : Int} (h : isLongInteger n = false) :
    integer? 10 (Text.ofInt n) = some n := by
  have hlen : (Text.ofNat n.natAbs).length ≤ mostDigits := by simpa [isLongInteger] using h
  rw [Text.ofInt]
  split
  · next hneg =>
    have hstrip : Text.strip isSpacing ('-' :: Text.ofNat n.natAbs) = '-' :: Text.ofNat n.natAbs :=
      Text.strip_eq fun c hc => (List.mem_cons.1 hc).elim (fun he => he ▸ by decide) fun hc =>
        forall_digit (P := fun d => isSpacing d = false) (by decide) (isAsciiDigit_of_mem_ofNat hc)
    rw [integer?, hstrip, takeSign]
    dsimp only
    rw [withoutBase_of_no_letters rfl, if_neg (by simpa using hlen), natIn?_ofNat]
    show some (-(n.natAbs : Int)) = some n
    rw [Option.some.injEq]
    omega
  · rw [integer?_ofNat hlen, Option.some.injEq]
    omega

/-- A number has its digits for a bound. -/
theorem foldlM_nextDigit_lt {base : Nat} {digits : Text} {n m : Nat}
    (h : digits.foldlM (nextDigit base) n = some m) :
    m < (n + 1) * Nat.pow base digits.length := by
  induction digits generalizing n with
  | nil =>
    obtain rfl := Option.some.inj h
    simp
  | cons c rest ih =>
    obtain ⟨k, hk, h⟩ := Option.bind_eq_some_iff.1 h
    obtain ⟨d, hd, rfl⟩ := Option.map_eq_some_iff.1 hk
    have hlt := digitIn?_lt hd
    have hle : n * base + d + 1 ≤ (n + 1) * base := by
      rw [Nat.add_mul, Nat.one_mul]
      omega
    calc m < (n * base + d + 1) * Nat.pow base rest.length := ih h
      _ ≤ (n + 1) * base * Nat.pow base rest.length := Nat.mul_le_mul_right _ hle
      _ = (n + 1) * Nat.pow base (c :: rest).length := by
        rw [Nat.mul_assoc, List.length_cons, Nat.pow_eq, Nat.pow_eq, Nat.pow_succ']

theorem natIn?_lt {base : Nat} {digits : Text} {n : Nat} (h : natIn? base digits = some n) :
    n < Nat.pow base digits.length := by
  cases digits with
  | nil => cases h
  | cons c rest => simpa using foldlM_nextDigit_lt (n := 0) h

/-- What is read as a decimal integer has no more digits than may be read. -/
theorem isLongInteger_of_integer? {t : Text} {n : Int} (h : integer? 10 t = some n) :
    isLongInteger n = false := by
  rw [integer?] at h
  dsimp only at h
  split at h
  · cases h
  · next hlen =>
    obtain ⟨m, hm, rfl⟩ := Option.map_eq_some_iff.1 h
    obtain ⟨k, hk, hm⟩ := Option.bind_eq_some_iff.1 hm
    obtain rfl := Option.some.inj hm
    have hlen' : (withoutBase 10 (takeSign (t.strip isSpacing)).2).length ≤ mostDigits := by
      simpa using hlen
    have hpow : ∀ a b : Nat, a ≤ b → Nat.pow 10 a ≤ Nat.pow 10 b := fun a b =>
      Nat.pow_le_pow_right (Nat.succ_pos 9)
    have hlt : k < Nat.pow 10 mostDigits :=
      Nat.lt_of_lt_of_le (natIn?_lt hk) (hpow _ _ hlen')
    have hshort : isLongInteger (k : Int) = false := by
      rw [← Bool.not_eq_true, isLongInteger_iff, Nat.not_le]
      exact hlt
    split
    · rw [isLongInteger_neg]
      exact hshort
    · exact hshort

theorem natIn?_ofHex (width n : Nat) : natIn? 16 (Text.ofHex width n) = some n := by
  have := natIn?_padded (by decide) shows_hex (width - (Nat.toDigits 16 n).length) n
  simpa [Text.ofHex] using this

theorem natIn?_ofHex_raised (width n : Nat) :
    natIn? 16 (Text.ofHex width n).raised = some n :=
  natIn?_padded (by decide) shows_hex_raised (width - (Nat.toDigits 16 n).length) n

theorem length_ofHex {width n : Nat} (hw : 0 < width) (h : n < Nat.pow 16 width) :
    (Text.ofHex width n).length = width := by
  have := (Nat.length_toDigits_le_iff (b := 16) (by decide) hw).2 h
  simp only [Text.ofHex, List.length_append, List.length_replicate]
  omega

theorem mem_ofHex {width n : Nat} {c : Char} (h : c ∈ Text.ofHex width n) :
    ∃ d < 16, c = d.digitChar := by
  simp only [Text.ofHex, List.mem_append, List.mem_replicate] at h
  rcases h with ⟨-, rfl⟩ | h
  · exact ⟨0, by decide, rfl⟩
  · exact mem_toDigits (by decide) h

end ModernControls
