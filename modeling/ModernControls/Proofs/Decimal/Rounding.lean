import Mathlib.Algebra.Order.Field.Power
import Mathlib.Data.Int.Log
import Mathlib.Data.Rat.Floor
import Mathlib.Tactic.FieldSimp
import Mathlib.Tactic.Linarith
import Mathlib.Tactic.Positivity
import Mathlib.Tactic.Ring
import ModernControls.Proofs.Decimal.Canonical

/-!
# Rounding to the format

A ratio is rounded by its value alone, so a decimal may be written with another coefficient and
another power of ten. What is rounded is a number of the format, and such a number is not changed.

Results:
- `exponentOf_eq`: the exponent of a ratio comes from the logarithm of its value;
- `ofRatio_congr`: equal ratios are rounded to the same number;
- `ofRatio_ratioOf`: a number of the format is rounded to itself;
- `canonical_ofRatio`: what is rounded is a number of the format;
- `ofDecimal_eq`: the bounds on powers of ten change no result.
-/
namespace ModernControls.Binary64

variable {num den : Nat}

/-! ## The exponent of a ratio -/

theorem two_zpow_le_iff (hd : 0 < den) (k : Int) :
    (2 : ℚ) ^ k ≤ num / den ↔
      if 0 ≤ k then den * Nat.pow 2 k.toNat ≤ num else den ≤ num * Nat.pow 2 (-k).toNat := by
  have hden : (0 : ℚ) < den := by exact_mod_cast hd
  rw [le_div_iff₀ hden]
  split
  · next hk =>
    lift k to Nat using hk
    rw [zpow_natCast, Int.toNat_natCast, mul_comm]
    norm_cast
  · next hk =>
    obtain ⟨n, rfl⟩ : ∃ n : Nat, k = -n := ⟨(-k).toNat, by omega⟩
    rw [zpow_neg, zpow_natCast, inv_mul_le_iff₀ (by positivity), neg_neg, Int.toNat_natCast, mul_comm]
    norm_cast

/-- The exponent of a ratio is that of its leading bit less 52, or the least one. -/
theorem exponentOf_eq (hn : 0 < num) (hd : 0 < den) :
    exponentOf num den = max (Int.log 2 (num / den : ℚ) - 52) leastExponent := by
  have hratio : (0 : ℚ) < num / den := by positivity
  have hlow : (2 : ℚ) ^ ((num.log2 : Int) - den.log2 - 1) ≤ num / den := by
    rw [le_div_iff₀ (by positivity)]
    have h1 : (den : ℚ) ≤ 2 ^ ((den.log2 : Int) + 1) := by
      exact_mod_cast (Nat.lt_log2_self (n := den)).le
    have h2 : (2 : ℚ) ^ (num.log2 : Int) ≤ num := by
      exact_mod_cast Nat.log2_self_le hn.ne'
    calc (2 : ℚ) ^ ((num.log2 : Int) - den.log2 - 1) * den
        ≤ 2 ^ ((num.log2 : Int) - den.log2 - 1) * 2 ^ ((den.log2 : Int) + 1) := by gcongr
      _ = 2 ^ (num.log2 : Int) := by rw [← zpow_add₀ (by norm_num)]; congr 1; ring
      _ ≤ num := h2
  have hhigh : (num / den : ℚ) < 2 ^ ((num.log2 : Int) - den.log2 + 1) := by
    rw [div_lt_iff₀ (by positivity)]
    have h1 : (num : ℚ) < 2 ^ ((num.log2 : Int) + 1) := by
      exact_mod_cast Nat.lt_log2_self (n := num)
    have h2 : (2 : ℚ) ^ (den.log2 : Int) ≤ den := by
      exact_mod_cast Nat.log2_self_le hd.ne'
    calc (num : ℚ) < 2 ^ ((num.log2 : Int) + 1) := h1
      _ = 2 ^ ((num.log2 : Int) - den.log2 + 1) * 2 ^ (den.log2 : Int) := by
        rw [← zpow_add₀ (by norm_num)]; congr 1; ring
      _ ≤ 2 ^ ((num.log2 : Int) - den.log2 + 1) * den := by gcongr
  rw [exponentOf]
  have hreached : (2 : ℚ) ^ ((num.log2 : Int) - den.log2) ≤ num / den ↔ _ :=
    two_zpow_le_iff hd ((num.log2 : Int) - den.log2)
  have hlow' := (Int.zpow_le_iff_le_log (b := 2) (by decide) hratio).1 hlow
  have hhigh' := (Int.lt_zpow_iff_log_lt (b := 2) (by decide) hratio).1 hhigh
  by_cases h : (2 : ℚ) ^ ((num.log2 : Int) - den.log2) ≤ num / den
  · have := (Int.zpow_le_iff_le_log (b := 2) (by decide) hratio).1 h
    rw [if_pos (hreached.1 h)]
    congr 1
    omega
  · have := (Int.lt_zpow_iff_log_lt (b := 2) (by decide) hratio).1 (not_le.1 h)
    rw [if_neg fun hr => h (hreached.2 hr)]
    congr 1
    omega

/-! ## Quotients -/

/-- The two numbers whose quotient is a ratio divided by a power of two. -/
def partsAt (num den : Nat) (e : Int) : Nat × Nat :=
  if 0 ≤ e then (num, den * Nat.pow 2 e.toNat) else (num * Nat.pow 2 (-e).toNat, den)

theorem partsAt_pos (hd : 0 < den) (e : Int) : 0 < (partsAt num den e).2 := by
  rw [partsAt]
  split
  · exact Nat.mul_pos hd (Nat.pow_pos (by decide))
  · exact hd

theorem partsAt_eq (num den : Nat) (e : Int) :
    ((partsAt num den e).1 / (partsAt num den e).2 : ℚ) = num / den / 2 ^ e := by
  rw [partsAt]
  split
  · next he =>
    lift e to Nat using he
    rw [zpow_natCast, Int.toNat_natCast, div_div]
    norm_cast
  · next he =>
    obtain ⟨n, rfl⟩ : ∃ n : Nat, e = -n := ⟨(-e).toNat, by omega⟩
    rw [zpow_neg, zpow_natCast, div_inv_eq_mul, neg_neg, Int.toNat_natCast, div_mul_eq_mul_div]
    norm_cast

theorem mul_parts_le_iff (hd : 0 < den) (e : Int) (k : Nat) :
    k * (partsAt num den e).2 ≤ (partsAt num den e).1 ↔ (k : ℚ) * 2 ^ e ≤ num / den := by
  have hpos : (0 : ℚ) < (partsAt num den e).2 := by exact_mod_cast partsAt_pos hd e
  rw [← le_div_iff₀ (by positivity : (0 : ℚ) < 2 ^ e), ← partsAt_eq, le_div_iff₀ hpos]
  norm_cast

theorem roundedQuotient_mul (m : Nat) (hd : 0 < den) : roundedQuotient (m * den) den = m := by
  rw [roundedQuotient, Nat.mul_div_cancel _ hd, Nat.mul_mod_left]
  rw [if_neg (by omega)]

theorem roundedQuotient_scale {k : Nat} (hk : 0 < k) (num den : Nat) :
    roundedQuotient (k * num) (k * den) = roundedQuotient num den := by
  rw [roundedQuotient, roundedQuotient, Nat.mul_div_mul_left _ _ hk, Nat.mul_mod_mul_left]
  have hlt : k * den < 2 * (k * (num % den)) ↔ den < 2 * (num % den) := by
    rw [Nat.mul_left_comm, Nat.mul_lt_mul_left hk]
  have heq : 2 * (k * (num % den)) = k * den ↔ 2 * (num % den) = den := by
    rw [Nat.mul_left_comm, Nat.mul_right_inj hk.ne']
  simp only [hlt, heq]

/-- A quotient is rounded by its value. -/
theorem roundedQuotient_congr {num' den' : Nat} (hd : 0 < den) (hd' : 0 < den')
    (h : num * den' = num' * den) : roundedQuotient num den = roundedQuotient num' den' := by
  rw [← roundedQuotient_scale hd' num den, ← roundedQuotient_scale hd num' den', Nat.mul_comm den',
    h, Nat.mul_comm num', Nat.mul_comm den' den]

theorem le_roundedQuotient {k : Nat} (hd : 0 < den) (h : k * den ≤ num) :
    k ≤ roundedQuotient num den := by
  have := (Nat.le_div_iff_mul_le hd).2 h
  rw [roundedQuotient]
  split <;> omega

theorem roundedQuotient_le {k : Nat} (hd : 0 < den) (h : num < k * den) :
    roundedQuotient num den ≤ k := by
  have := (Nat.div_lt_iff_lt_mul hd).2 h
  rw [roundedQuotient]
  split <;> omega

theorem roundedQuotient_small (h : 2 * num < den) : roundedQuotient num den = 0 := by
  rw [roundedQuotient, Nat.div_eq_of_lt (by omega), Nat.mod_eq_of_lt (by omega)]
  rw [if_neg (by omega)]

/-! ## Rounding a ratio -/

/-- The mantissa of a ratio for an exponent. -/
def mantissaAt (num den : Nat) (e : Int) : Nat :=
  roundedQuotient (partsAt num den e).1 (partsAt num den e).2

/-- The number of the format for a mantissa that was rounded, perhaps to one bit more. -/
def ofRounded (negative : Bool) (m : Nat) (e : Int) : Binary64 :=
  let (m, e) := if m = mantissaBound then (mantissaBound / 2, e + 1) else (m, e)
  if greatestExponent < e then .infinite negative else .finite negative m e

theorem ofRatio_eq (negative : Bool) (hn : 0 < num) (hd : 0 < den) :
    ofRatio negative num den
      = ofRounded negative (mantissaAt num den (exponentOf num den)) (exponentOf num den) := by
  have hm : mantissaAt num den (exponentOf num den)
      = if 0 ≤ exponentOf num den then
          roundedQuotient num (den * Nat.pow 2 (exponentOf num den).toNat)
        else roundedQuotient (num * Nat.pow 2 (-exponentOf num den).toNat) den := by
    rw [mantissaAt, partsAt]
    split <;> rfl
  rw [ofRatio, if_neg (by omega), hm]
  rfl

/-- Equal ratios are rounded to the same number. -/
theorem ofRatio_congr (negative : Bool) {num' den' : Nat} (hd : 0 < den) (hd' : 0 < den')
    (h : num * den' = num' * den) : ofRatio negative num den = ofRatio negative num' den' := by
  rcases Nat.eq_zero_or_pos num with rfl | hn
  · obtain rfl : num' = 0 := by
      rw [Nat.zero_mul] at h
      exact (Nat.mul_eq_zero.1 h.symm).resolve_right hd.ne'
    rw [ofRatio_zero, ofRatio_zero]
  · have hn' : 0 < num' := by
      have := Nat.mul_pos hn hd'
      rw [h] at this
      exact Nat.pos_of_mul_pos_right this
    have hratio : (num / den : ℚ) = num' / den' := by
      rw [div_eq_div_iff (by positivity) (by positivity)]
      exact_mod_cast h
    have hexp : exponentOf num den = exponentOf num' den' := by
      rw [exponentOf_eq hn hd, exponentOf_eq hn' hd', hratio]
    rw [ofRatio_eq negative hn hd, ofRatio_eq negative hn' hd', hexp]
    congr 1
    refine roundedQuotient_congr (partsAt_pos hd _) (partsAt_pos hd' _) ?_
    have hparts := (partsAt_eq num den (exponentOf num' den')).trans
      ((congrArg (· / (2 : ℚ) ^ exponentOf num' den') hratio).trans
        (partsAt_eq num' den' (exponentOf num' den')).symm)
    have h1 : (0 : ℚ) < (partsAt num den (exponentOf num' den')).2 := by
      exact_mod_cast partsAt_pos hd _
    have h2 : (0 : ℚ) < (partsAt num' den' (exponentOf num' den')).2 := by
      exact_mod_cast partsAt_pos hd' _
    rw [div_eq_div_iff h1.ne' h2.ne'] at hparts
    exact_mod_cast hparts

/-! ## Numbers of the format -/

theorem ofRounded_of_canonical {negative : Bool} {m : Nat} {e : Int}
    (h : Canonical (.finite negative m e)) (sign : Bool) : ofRounded sign m e = .finite sign m e := by
  obtain ⟨h1, -, h3, -⟩ := h
  rw [ofRounded, if_neg (by omega)]
  exact if_neg (by omega)

/-- A mantissa that is large enough for its exponent, and at most one bit too large, is that of a
number of the format. -/
theorem canonical_ofRounded {negative : Bool} {m : Nat} {e : Int} (hm : m ≤ mantissaBound)
    (he : leastExponent ≤ e) (hlow : mantissaBound ≤ 2 * m ∨ e = leastExponent) :
    Canonical (ofRounded negative m e) := by
  have hbound : 2 * (mantissaBound / 2) = mantissaBound := by decide
  have hpos : 0 < mantissaBound := by decide
  rw [ofRounded]
  by_cases h : m = mantissaBound
  · rw [if_pos h]
    dsimp only
    split
    · trivial
    · exact ⟨by omega, by omega, by omega, .inl (by omega)⟩
  · rw [if_neg h]
    dsimp only
    split
    · trivial
    · exact ⟨by omega, he, by omega, hlow⟩

theorem canonical_zero (negative : Bool) : Canonical (zero negative) := by
  refine ⟨by decide, by decide, by decide, .inr rfl⟩

/-- What is rounded is a number of the format. -/
theorem canonical_ofRatio (negative : Bool) (num den : Nat) :
    Canonical (ofRatio negative num den) := by
  by_cases hzero : num = 0 ∨ den = 0
  · rw [ofRatio, if_pos hzero]
    exact canonical_zero negative
  · obtain ⟨hn, hd⟩ : 0 < num ∧ 0 < den := by omega
    have hratio : (0 : ℚ) < num / den := by positivity
    have hexp := exponentOf_eq hn hd
    have hhigh := Int.lt_zpow_succ_log_self (b := 2) (by decide) (num / den : ℚ)
    have hlow := Int.zpow_log_le_self (b := 2) (by decide) hratio
    rw [ofRatio_eq negative hn hd]
    generalize exponentOf num den = e at hexp
    refine canonical_ofRounded ?_ (by omega) ?_
    · refine roundedQuotient_le (partsAt_pos hd e) (not_le.1 fun hle => ?_)
      rw [mul_parts_le_iff hd] at hle
      refine absurd (hhigh.trans_le ?_) (not_lt.2 hle)
      rw [show mantissaBound = 2 ^ 53 from rfl, Nat.cast_pow, ← zpow_natCast, Nat.cast_ofNat,
        ← zpow_add₀ (by norm_num)]
      exact zpow_le_zpow_right₀ (by norm_num) (by push_cast; omega)
    · by_cases he : e = leastExponent
      · exact .inr he
      · have hm : 2 ^ 52 ≤ mantissaAt num den e := by
          refine le_roundedQuotient (partsAt_pos hd e) ((mul_parts_le_iff hd e _).2 ?_)
          refine le_trans ?_ hlow
          rw [Nat.cast_pow, ← zpow_natCast, Nat.cast_ofNat, ← zpow_add₀ (by norm_num)]
          exact zpow_le_zpow_right₀ (by norm_num) (by push_cast; omega)
        have hbound : mantissaBound = 2 * 2 ^ 52 := rfl
        exact .inl (by omega)

theorem log_mantissa {m : Nat} {e : Int} (hm : 0 < m) :
    Int.log 2 ((m : ℚ) * 2 ^ e) = Nat.log2 m + e := by
  have hpos : (0 : ℚ) < m * 2 ^ e := by positivity
  have h1 : (2 : ℚ) ^ (Nat.log2 m : Int) ≤ m := by exact_mod_cast Nat.log2_self_le hm.ne'
  have h2 : (m : ℚ) < 2 ^ ((Nat.log2 m : Int) + 1) := by exact_mod_cast Nat.lt_log2_self (n := m)
  have hle : (2 : ℚ) ^ ((Nat.log2 m : Int) + e) ≤ m * 2 ^ e := by
    rw [zpow_add₀ (by norm_num)]
    gcongr
  have hlt : (m : ℚ) * 2 ^ e < 2 ^ ((Nat.log2 m : Int) + e + 1) := by
    rw [show (Nat.log2 m : Int) + e + 1 = (Nat.log2 m + 1) + e by ring, zpow_add₀ (by norm_num)]
    gcongr
  have hle' := (Int.zpow_le_iff_le_log (b := 2) (by decide) hpos).1 hle
  have hlt' := (Int.lt_zpow_iff_log_lt (b := 2) (by decide) hpos).1 hlt
  omega

theorem ratioOf_eq (m : Nat) (e : Int) :
    ((ratioOf m e).1 / (ratioOf m e).2 : ℚ) = m * 2 ^ e ∧ 0 < (ratioOf m e).2 := by
  rw [ratioOf]
  split
  · next he =>
    lift e to Nat using he
    rw [zpow_natCast, Int.toNat_natCast]
    simp
  · next he =>
    obtain ⟨n, rfl⟩ : ∃ n : Nat, e = -n := ⟨(-e).toNat, by omega⟩
    rw [zpow_neg, zpow_natCast, neg_neg, Int.toNat_natCast, div_eq_mul_inv]
    exact ⟨by norm_cast, Nat.pow_pos (by decide)⟩

/-- A number of the format is rounded to itself. -/
theorem ofRatio_ratioOf {negative : Bool} {m : Nat} {e : Int} (hm : 0 < m)
    (h : Canonical (.finite negative m e)) (sign : Bool) :
    ofRatio sign (ratioOf m e).1 (ratioOf m e).2 = .finite sign m e := by
  obtain ⟨hvalue, hd⟩ := ratioOf_eq m e
  have hn : 0 < (ratioOf m e).1 := by
    refine Nat.pos_of_ne_zero fun hz => ?_
    rw [hz, Nat.cast_zero, zero_div] at hvalue
    have : (0 : ℚ) < m * 2 ^ e := by positivity
    exact this.ne hvalue
  have hexp : exponentOf (ratioOf m e).1 (ratioOf m e).2 = e := by
    obtain ⟨h1, h2, -, h4⟩ := h
    have hlog : m.log2 < 53 := (Nat.log2_lt hm.ne').2 h1
    have hlog' : mantissaBound ≤ 2 * m → 52 ≤ m.log2 := fun hle =>
      (Nat.le_log2 hm.ne').2 (by
        have hbound : mantissaBound = 2 * 2 ^ 52 := rfl
        omega)
    rw [exponentOf_eq hn hd, hvalue, log_mantissa hm]
    rcases h4 with h4 | h4
    · have := hlog' h4
      omega
    · omega
  rw [ofRatio_eq sign hn hd, hexp, show mantissaAt _ _ e = m from ?_, ofRounded_of_canonical h]
  rw [mantissaAt, ratioOf, partsAt]
  split
  · rw [Nat.one_mul]
    exact roundedQuotient_mul m (Nat.pow_pos (by decide))
  · exact roundedQuotient_mul m (Nat.pow_pos (by decide))

/-! ## Decimals -/

/-- A decimal as a ratio. -/
def decimalRatio (c : Nat) (e : Int) : Nat × Nat := (c * 10 ^ e.toNat, 10 ^ (-e).toNat)

/-- A power of two that lies below 10^401, and far beyond what the format reaches. -/
theorem exists_far : ∃ k : Nat, 1203 ≤ k ∧ 2 ^ k ≤ 10 ^ 401 :=
  ⟨3 * 401, by decide, (Nat.pow_mul 2 3 401).trans_le (Nat.pow_le_pow_left (by decide) 401)⟩

/-- A ratio far above the largest number has no finite number near it. -/
theorem ofRatio_huge (negative : Bool) {k : Nat} (hk : 1203 ≤ k) (h : 2 ^ k ≤ num) :
    ofRatio negative num 1 = .infinite negative := by
  have hn : 0 < num := (Nat.two_pow_pos k).trans_le h
  have hlog : (k : Int) ≤ Int.log 2 (num / (1 : Nat) : ℚ) := by
    refine (Int.zpow_le_iff_le_log (b := 2) (by decide) (by positivity)).1 ?_
    rw [Nat.cast_one, div_one]
    exact_mod_cast h
  have hexp := exponentOf_eq hn Nat.one_pos
  rw [ofRatio_eq negative hn (by decide), ofRounded]
  generalize exponentOf num 1 = e at hexp
  have hgreat : greatestExponent < e := by
    rw [show greatestExponent = 971 from rfl]
    omega
  split
  next m' e' heq =>
    refine if_pos ?_
    split at heq
    · obtain ⟨-, rfl⟩ := Prod.mk.inj heq
      omega
    · obtain ⟨-, rfl⟩ := Prod.mk.inj heq
      exact hgreat

/-- A ratio far below the least number is rounded to zero. -/
theorem ofRatio_tiny (negative : Bool) {k : Nat} (hk : 1203 ≤ k) (hd : 0 < den)
    (h : num * 2 ^ k < den) :
    ofRatio negative num den = zero negative := by
  rcases Nat.eq_zero_or_pos num with rfl | hn
  · exact ofRatio_zero negative den
  · have hratio : (num / den : ℚ) < 2 ^ (-k : Int) := by
      rw [zpow_neg, zpow_natCast, lt_inv_comm₀ (by positivity) (by positivity), inv_div,
        lt_div_iff₀ (by positivity),
        mul_comm]
      exact_mod_cast h
    have hlog := (Int.lt_zpow_iff_log_lt (b := 2) (by decide) (by positivity)).1 hratio
    have hexp : exponentOf num den = leastExponent := by
      rw [exponentOf_eq hn hd, show leastExponent = -1074 from rfl]
      omega
    have hm : mantissaAt num den leastExponent = 0 := by
      refine roundedQuotient_small ?_
      have hleast : (-leastExponent).toNat + 1 ≤ k := le_trans (by decide) hk
      rw [partsAt, if_neg (by decide)]
      calc 2 * (num * 2 ^ (-leastExponent).toNat) = num * 2 ^ ((-leastExponent).toNat + 1) := by
            rw [Nat.pow_succ', Nat.mul_left_comm]
        _ ≤ num * 2 ^ k := Nat.mul_le_mul_left _ (Nat.pow_le_pow_right (by decide) hleast)
        _ < den := h
    rw [ofRatio_eq negative hn hd, hexp, hm]
    exact ofRounded_of_canonical (canonical_zero negative) negative

/-- The bounds on powers of ten change no result. -/
theorem ofDecimal_eq (negative : Bool) (c : Nat) (e : Int) :
    ofDecimal negative c e = ofRatio negative (decimalRatio c e).1 (decimalRatio c e).2 := by
  obtain ⟨k, hk, hpow⟩ := exists_far
  rw [ofDecimal, decimalRatio]
  by_cases hc : c = 0
  · rw [if_pos hc, hc, Nat.zero_mul, ofRatio_zero]
  rw [if_neg hc]
  by_cases hbig : 400 < e
  · rw [if_pos hbig, show (-e).toNat = 0 by omega, Nat.pow_zero, ofRatio_huge negative hk]
    calc 2 ^ k ≤ 10 ^ 401 := hpow
      _ ≤ 10 ^ e.toNat := Nat.pow_le_pow_right (by decide) (by omega)
      _ ≤ c * 10 ^ e.toNat := Nat.le_mul_of_pos_left _ (Nat.pos_of_ne_zero hc)
  rw [if_neg hbig]
  by_cases hsmall : e + (Nat.log2 c + 1) < -400
  · rw [if_pos hsmall, show e.toNat = 0 by omega, Nat.pow_zero, Nat.mul_one]
    refine (ofRatio_tiny negative hk (Nat.pow_pos (by decide)) ?_).symm
    calc c * 2 ^ k < 2 ^ (c.log2 + 1) * 2 ^ k :=
          Nat.mul_lt_mul_of_pos_right Nat.lt_log2_self (Nat.two_pow_pos _)
      _ ≤ 10 ^ (c.log2 + 1) * 10 ^ 401 :=
          Nat.mul_le_mul (Nat.pow_le_pow_left (by decide) _) hpow
      _ = 10 ^ (c.log2 + 1 + 401) := (Nat.pow_add 10 _ _).symm
      _ ≤ 10 ^ (-e).toNat := Nat.pow_le_pow_right (by decide) (by omega)
  rw [if_neg hsmall]
  split
  · next he =>
    rw [show (-e).toNat = 0 by omega]
    rfl
  · next he =>
    rw [show e.toNat = 0 by omega, Nat.pow_zero, Nat.mul_one]
    rfl

/-- Decimals of the same value are read as the same number. -/
theorem ofDecimal_congr (negative : Bool) (c : Nat) (e : Int) (k : Nat) :
    ofDecimal negative (c * 10 ^ k) e = ofDecimal negative c (e + k) := by
  rw [ofDecimal_eq, ofDecimal_eq]
  refine ofRatio_congr negative (Nat.pow_pos (by decide)) (Nat.pow_pos (by decide)) ?_
  simp only [decimalRatio, Nat.mul_assoc, ← Nat.pow_add]
  congr 2
  omega

theorem canonical_ofDecimal (negative : Bool) (c : Nat) (e : Int) :
    Canonical (ofDecimal negative c e) := by
  rw [ofDecimal_eq]
  exact canonical_ofRatio negative _ _

/-- The shortest decimal of a number of the format is read as the number. -/
theorem ofDecimal_shortest_of_canonical {negative : Bool} {m : Nat} {e : Int} (hm : 0 < m)
    (h : Canonical (.finite negative m e)) :
    ofDecimal false (shortest m e).1 (shortest m e).2 = .finite false m e := by
  rcases ofDecimal_shortest m e with hs | hs
  · exact hs
  · rw [hs, ofDecimal_eq, ← ofRatio_ratioOf hm h false]
    refine ofRatio_congr false (Nat.pow_pos (by decide)) (ratioOf_eq m e).2 ?_
    rw [exactDecimal, ratioOf]
    split
    · simp [decimalRatio]
    · next he =>
      obtain ⟨n, rfl⟩ : ∃ n : Nat, e = -n := ⟨(-e).toNat, by omega⟩
      simp only [decimalRatio, neg_neg, Int.toNat_natCast, Int.toNat_neg_natCast, Nat.pow_zero,
        Nat.mul_one, Nat.mul_assoc]
      congr 1
      exact (Nat.mul_pow 5 2 n).symm

end ModernControls.Binary64
