import Mathlib

/-!
# Fee rates and the estimator's fee

Fee rates are JavaScript numbers, and the estimator charges a transaction of `vsize` virtual
bytes `Math.max(Math.ceil(vsize * feeRate), vsize)`, in double precision. A `FeeRate` is a finite
binary64 value `± mantissa · 2^exponent`. The product `vsize * feeRate` is rounded to the nearest
double, ties to even, before `Math.ceil` sees it, so the fee is not always the exact
`⌈vsize · feeRate⌉`: at 1.1 sat/vB, whose double lies just above `11/10`, a transaction of
120 vB is charged 132, below its exact product, and one of 200 vB is charged 221.

The rounding is computed on mantissas and exponents, as the hardware does. Its laws are proved on
values measured in units of `2^-1074`, the smallest subnormal, of which every finite double is a
whole number: there rounding keeps the 53 leading bits of a natural number. A product beyond the
largest double, which the code turns into `Infinity`, is rounded here as if the exponent had no
upper bound; it would be a fee of more than `2^1024` satoshis.
-/

namespace ChainInscription

/-- `Nat.log2 n`, by at most `fuel` halvings: a structural recursion that `decide` evaluates. -/
def log2Fuel : ℕ → ℕ → ℕ
  | 0, _ => 0
  | fuel + 1, n => if n ≥ 2 then log2Fuel fuel (n / 2) + 1 else 0

theorem log2Fuel_eq {fuel n : ℕ} (h : n.log2 ≤ fuel) : log2Fuel fuel n = n.log2 := by
  have hd : ∀ n : ℕ, n.log2 = if n ≥ 2 then (n / 2).log2 + 1 else 0 := fun n => by rw [Nat.log2]
  induction fuel generalizing n with
  | zero => rw [log2Fuel]; omega
  | succ fuel ih =>
    rw [log2Fuel, hd n]
    split_ifs with hn
    · rw [hd n, if_pos hn] at h
      rw [ih (by omega)]
    · rfl

@[simp] theorem log2Fuel_self (n : ℕ) : log2Fuel n n = n.log2 := log2Fuel_eq (Nat.log2_le_self n)

/-- A fee rate in sat/vB as JavaScript holds it: a finite double
`(-1)^negative · mantissa · 2^exponent`, with binary64's 53-bit mantissa and exponent range. -/
structure FeeRate where
  negative : Bool
  mantissa : ℕ
  exponent : ℤ
  mantissa_lt : mantissa < 2 ^ 53
  exponent_ge : -1074 ≤ exponent
  exponent_le : exponent ≤ 971

/-- `n / 2^s` rounded to the nearest whole number, ties to the even one. -/
def roundHalfEven (n s : ℕ) : ℕ :=
  if 2 * (n % 2 ^ s) < 2 ^ s then n / 2 ^ s
  else if 2 ^ s < 2 * (n % 2 ^ s) then n / 2 ^ s + 1
  else if n / 2 ^ s % 2 = 0 then n / 2 ^ s else n / 2 ^ s + 1

/-- The exponent of the last of the 53 mantissa bits of the double nearest `n · 2^e`, `n > 0`,
never below that of the smallest subnormal. -/
def quantumExponent (n : ℕ) (e : ℤ) : ℤ := max (log2Fuel n n + e - 52) (-1074)

/-- `n · 2^e` rounded to the nearest double, ties to even, as a mantissa and an exponent. -/
def roundToDouble (n : ℕ) (e : ℤ) : ℕ × ℤ :=
  if quantumExponent n e ≤ e then (n, e)
  else (roundHalfEven n (quantumExponent n e - e).toNat, quantumExponent n e)

/-- `Math.ceil` of the double `m · 2^q`, `m ≥ 0`. -/
def ceilPow2 (m : ℕ) (q : ℤ) : ℕ :=
  if 0 ≤ q then m * 2 ^ q.toNat else (m + 2 ^ (-q).toNat - 1) / 2 ^ (-q).toNat

/-- `Math.floor` of the double `m · 2^q`, `m ≥ 0`. -/
def floorPow2 (m : ℕ) (q : ℤ) : ℕ :=
  if 0 ≤ q then m * 2 ^ q.toNat else m / 2 ^ (-q).toNat

namespace FeeRate

/-- The rate's value. -/
def toRat (r : FeeRate) : ℚ := (if r.negative then -1 else 1) * r.mantissa * (2 : ℚ) ^ r.exponent

/-- `vsize * feeRate` in magnitude: the exact product rounded to a double. -/
def mul (r : FeeRate) (vsize : ℕ) : ℕ × ℤ := roundToDouble (vsize * r.mantissa) r.exponent

/-- `vsize * feeRate` as JavaScript computes it. -/
def mulValue (r : FeeRate) (vsize : ℕ) : ℚ :=
  (if r.negative then -1 else 1) * (r.mul vsize).1 * (2 : ℚ) ^ (r.mul vsize).2

/-- `Math.ceil(vsize * feeRate)`; a negative product is rounded up towards zero. -/
def ceilMul (r : FeeRate) (vsize : ℕ) : ℤ :=
  if r.negative then -(floorPow2 (r.mul vsize).1 (r.mul vsize).2 : ℤ)
  else ceilPow2 (r.mul vsize).1 (r.mul vsize).2

end FeeRate

/-- The estimator's fee for `vsize` virtual bytes, `Math.max(Math.ceil(vsize * feeRate), vsize)`:
the rate's fee rounded up, and at least one satoshi per virtual byte. -/
def feeFor (vsize : ℕ) (r : FeeRate) : ℤ := max (r.ceilMul vsize) vsize

/-- A whole number of sat/vB below `2^53`. -/
def FeeRate.ofNat (n : ℕ) (h : n < 2 ^ 53) : FeeRate := ⟨false, n, 0, h, by decide, by decide⟩

/-- The double nearest `1.1`, `4953959590107546 · 2^-52`. -/
def FeeRate.onePointOne : FeeRate := ⟨false, 4953959590107546, -52, by decide, by decide, by decide⟩

theorem vsize_le_feeFor (vsize : ℕ) (r : FeeRate) : (vsize : ℤ) ≤ feeFor vsize r :=
  le_max_right _ _

example : feeFor 120 FeeRate.onePointOne = 132 ∧ feeFor 200 FeeRate.onePointOne = 221 := by decide

/-! ## Rounding -/

theorem div_le_roundHalfEven (n s : ℕ) : n / 2 ^ s ≤ roundHalfEven n s := by
  unfold roundHalfEven; split_ifs <;> omega

theorem roundHalfEven_le (n s : ℕ) : roundHalfEven n s ≤ n / 2 ^ s + 1 := by
  unfold roundHalfEven; split_ifs <;> omega

/-- Rounding is monotone. -/
theorem roundHalfEven_mono {n n' : ℕ} (s : ℕ) (h : n ≤ n') :
    roundHalfEven n s ≤ roundHalfEven n' s := by
  rcases Nat.lt_or_eq_of_le (Nat.div_le_div_right h : n / 2 ^ s ≤ n' / 2 ^ s) with hlt | heq
  · exact (roundHalfEven_le n s).trans (hlt.trans_le (div_le_roundHalfEven n' s))
  · have hr : n % 2 ^ s ≤ n' % 2 ^ s := by
      have := Nat.div_add_mod n (2 ^ s)
      have := Nat.div_add_mod n' (2 ^ s)
      rw [heq] at *
      omega
    unfold roundHalfEven
    rw [heq]
    split_ifs <;> omega

/-- Bits below the rounding position do not change the rounding. -/
theorem roundHalfEven_mul_pow (n d k : ℕ) :
    roundHalfEven (n * 2 ^ k) (d + k) = roundHalfEven n d := by
  have hk : 0 < 2 ^ k := Nat.two_pow_pos k
  simp only [roundHalfEven, pow_add, Nat.mul_mod_mul_right, Nat.mul_div_mul_right _ _ hk,
    ← mul_assoc, Nat.mul_lt_mul_right hk]

theorem roundHalfEven_of_dvd {x s : ℕ} (h : 2 ^ s ∣ x) : roundHalfEven x s = x / 2 ^ s := by
  simp [roundHalfEven, Nat.mod_eq_zero_of_dvd h]

theorem log2_mul_pow {n : ℕ} (hn : n ≠ 0) (k : ℕ) : (n * 2 ^ k).log2 = n.log2 + k := by
  have hnk : n * 2 ^ k ≠ 0 := Nat.mul_ne_zero hn (Nat.two_pow_pos k).ne'
  apply le_antisymm
  · rw [← Nat.lt_succ_iff, Nat.log2_lt hnk, Nat.succ_eq_add_one, add_right_comm, pow_add]
    exact Nat.mul_lt_mul_of_pos_right Nat.lt_log2_self (Nat.two_pow_pos k)
  · rw [Nat.le_log2 hnk, pow_add]
    exact Nat.mul_le_mul_right _ (Nat.log2_self_le hn)

/-! ## Values in units of the smallest subnormal -/

/-- The double `m · 2^q` in units of `2^-1074`. -/
def toUnits (m : ℕ) (q : ℤ) : ℕ := m * 2 ^ (q + 1074).toNat

/-- Rounding to the nearest double, ties to even, of a value in units: its 53 leading bits. -/
def roundUnits (x : ℕ) : ℕ := roundHalfEven x (x.log2 - 52) * 2 ^ (x.log2 - 52)

/-- `Math.ceil` of a value in units. -/
def ceilUnits (x : ℕ) : ℕ := (x + 2 ^ 1074 - 1) / 2 ^ 1074

theorem exponent_roundToDouble {n : ℕ} {e : ℤ} (he : -1074 ≤ e) :
    -1074 ≤ (roundToDouble n e).2 := by
  unfold roundToDouble quantumExponent
  split_ifs <;> simp only [le_max_iff] <;> omega

/-- Rounding a double's mantissa and exponent is rounding its value in units. -/
theorem toUnits_roundToDouble (n : ℕ) {e : ℤ} (he : -1074 ≤ e) :
    toUnits (roundToDouble n e).1 (roundToDouble n e).2 =
      roundUnits (n * 2 ^ (e + 1074).toNat) := by
  obtain ⟨k, hk⟩ : ∃ k : ℕ, (e + 1074).toNat = k := ⟨_, rfl⟩
  rcases Nat.eq_zero_or_pos n with rfl | hn
  · simp [roundToDouble, quantumExponent, toUnits, roundUnits, roundHalfEven, he]
  have hlog := log2_mul_pow hn.ne' k
  unfold roundToDouble quantumExponent
  rw [log2Fuel_self, hk]
  split_ifs with hq
  · -- the product is a double already
    have hs : n.log2 + k - 52 ≤ k := by simp only [max_le_iff] at hq; omega
    have hdvd : 2 ^ (n.log2 + k - 52) ∣ n * 2 ^ k := (Nat.pow_dvd_pow 2 hs).mul_left n
    rw [toUnits, hk, roundUnits, hlog, roundHalfEven_of_dvd hdvd, Nat.div_mul_cancel hdvd]
  · -- 53 bits are kept and the rest rounded off
    have hd : (max (↑n.log2 + e - 52) (-1074) - e).toNat = n.log2 - 52 := by
      simp only [not_le, lt_max_iff] at hq; omega
    have hq' : (max (↑n.log2 + e - 52) (-1074) + 1074).toNat = n.log2 - 52 + k := by
      simp only [not_le, lt_max_iff] at hq; omega
    rw [toUnits, hd, hq', roundUnits, hlog, show n.log2 + k - 52 = n.log2 - 52 + k by
      simp only [not_le, lt_max_iff] at hq; omega, roundHalfEven_mul_pow]

theorem roundUnits_le_pow (x : ℕ) : roundUnits x ≤ 2 ^ (x.log2 + 1) := by
  have hx := Nat.lt_log2_self (n := x)
  by_cases hs : x.log2 ≤ 52
  · simp [roundUnits, Nat.sub_eq_zero_of_le hs, roundHalfEven, Nat.mod_one, hx.le]
  · have hpow : 2 ^ (x.log2 + 1) = 2 ^ 53 * 2 ^ (x.log2 - 52) := by rw [← pow_add]; congr 1; omega
    have hdiv : x / 2 ^ (x.log2 - 52) < 2 ^ 53 :=
      (Nat.div_lt_iff_lt_mul (Nat.two_pow_pos _)).2 (hpow ▸ hx)
    rw [roundUnits, hpow]
    exact Nat.mul_le_mul_right _ ((roundHalfEven_le _ _).trans hdiv)

theorem pow_log2_le_roundUnits {x : ℕ} (hx : x ≠ 0) : 2 ^ x.log2 ≤ roundUnits x := by
  have hs : x.log2 - 52 ≤ x.log2 := Nat.sub_le _ _
  calc 2 ^ x.log2 = 2 ^ (x.log2 - (x.log2 - 52)) * 2 ^ (x.log2 - 52) := by
        rw [← pow_add, Nat.sub_add_cancel hs]
    _ ≤ x / 2 ^ (x.log2 - 52) * 2 ^ (x.log2 - 52) := by
        refine Nat.mul_le_mul_right _ ((Nat.le_div_iff_mul_le (Nat.two_pow_pos _)).2 ?_)
        rw [← pow_add, Nat.sub_add_cancel hs]
        exact Nat.log2_self_le hx
    _ ≤ roundUnits x := Nat.mul_le_mul_right _ (div_le_roundHalfEven _ _)

/-- **Rounding to a double is monotone**: within a binade it rounds at one position; across
binades the smaller value rounds at most to the top of its binade, where the larger starts. -/
theorem roundUnits_mono {x y : ℕ} (h : x ≤ y) : roundUnits x ≤ roundUnits y := by
  rcases Nat.eq_zero_or_pos x with rfl | hx
  · simp [roundUnits, roundHalfEven]
  have hy : y ≠ 0 := by omega
  have hlog : x.log2 ≤ y.log2 := (Nat.le_log2 hy).2 ((Nat.log2_self_le hx.ne').trans h)
  rcases Nat.lt_or_eq_of_le hlog with hlt | heq
  · calc roundUnits x ≤ 2 ^ (x.log2 + 1) := roundUnits_le_pow x
      _ ≤ 2 ^ y.log2 := Nat.pow_le_pow_right (by norm_num) hlt
      _ ≤ roundUnits y := pow_log2_le_roundUnits hy
  · rw [roundUnits, roundUnits, heq]
    exact Nat.mul_le_mul_right _ (roundHalfEven_mono _ h)

theorem ceilUnits_mono {x y : ℕ} (h : x ≤ y) : ceilUnits x ≤ ceilUnits y :=
  Nat.div_le_div_right (by omega)

/-- `⌈m c / b c⌉ = ⌈m / b⌉`, with `⌈a / b⌉` written `(a + b - 1) / b`. -/
theorem ceil_div_mul_right {m b c : ℕ} (hb : 0 < b) (hc : 0 < c) :
    (m * c + b * c - 1) / (b * c) = (m + b - 1) / b := by
  have hbc : c ≤ b * c := Nat.le_mul_of_pos_left c hb
  have hq : (m * c + b * c - 1) / c = m + b - 1 := by
    apply Nat.div_eq_of_lt_le
    · rw [Nat.sub_mul, Nat.add_mul, one_mul]; omega
    · rw [Nat.succ_mul, Nat.sub_mul, Nat.add_mul, one_mul]; omega
  rw [← hq, Nat.div_div_eq_div_mul, mul_comm c b]

theorem ceilPow2_eq_ceilUnits (m : ℕ) {q : ℤ} (hq : -1074 ≤ q) :
    ceilPow2 m q = ceilUnits (toUnits m q) := by
  unfold ceilPow2 ceilUnits toUnits
  split_ifs with h0
  · rw [show (q + 1074).toNat = q.toNat + 1074 by omega, pow_add, ← mul_assoc,
      Nat.add_sub_assoc Nat.one_le_two_pow, add_comm, Nat.add_mul_div_right _ _ (Nat.two_pow_pos _),
      Nat.div_eq_of_lt (Nat.sub_lt (Nat.two_pow_pos _) one_pos), zero_add]
  · rw [show 2 ^ 1074 = 2 ^ (-q).toNat * 2 ^ (q + 1074).toNat by rw [← pow_add]; congr 1; omega,
      ceil_div_mul_right (Nat.two_pow_pos _) (Nat.two_pow_pos _)]

theorem floorPow2_eq (m : ℕ) {q : ℤ} (hq : -1074 ≤ q) :
    floorPow2 m q = toUnits m q / 2 ^ 1074 := by
  unfold floorPow2 toUnits
  split_ifs with h0
  · rw [show (q + 1074).toNat = q.toNat + 1074 by omega, pow_add, ← mul_assoc,
      Nat.mul_div_cancel _ (Nat.two_pow_pos _)]
  · rw [show 2 ^ 1074 = 2 ^ (-q).toNat * 2 ^ (q + 1074).toNat by rw [← pow_add]; congr 1; omega,
      Nat.mul_div_mul_right _ _ (Nat.two_pow_pos _)]

namespace FeeRate

/-- The rate's magnitude in units of `2^-1074`. -/
def units (r : FeeRate) : ℕ := r.mantissa * 2 ^ (r.exponent + 1074).toNat

theorem toRat_eq_units (r : FeeRate) :
    r.toRat = (if r.negative then -1 else 1) * r.units / 2 ^ 1074 := by
  have h2 : (2 : ℚ) ^ r.exponent = 2 ^ (r.exponent + 1074).toNat / 2 ^ 1074 := by
    rw [eq_div_iff (by positivity), ← zpow_natCast, ← zpow_natCast, ← zpow_add₀ two_ne_zero,
      Int.toNat_of_nonneg (by have := r.exponent_ge; omega)]
    norm_num
  rw [toRat, units, h2]
  push_cast
  ring

/-- `Math.ceil(vsize * feeRate)` for a rate that is not negative, on units. -/
theorem ceilMul_of_not_negative (r : FeeRate) (hr : r.negative = false) (vsize : ℕ) :
    r.ceilMul vsize = ceilUnits (roundUnits (vsize * r.units)) := by
  rw [ceilMul, if_neg (by simp [hr]), mul, ceilPow2_eq_ceilUnits _ (exponent_roundToDouble
    r.exponent_ge), toUnits_roundToDouble _ r.exponent_ge, units, mul_assoc]

theorem ceilMul_nonpos_of_negative (r : FeeRate) (hr : r.negative = true) (vsize : ℕ) :
    r.ceilMul vsize ≤ 0 := by
  rw [ceilMul, if_pos hr]
  omega

theorem ceilMul_of_mantissa_eq_zero (r : FeeRate) (hm : r.mantissa = 0) (vsize : ℕ) :
    r.ceilMul vsize = 0 := by
  have h0 : r.mul vsize = (0, r.exponent) := by
    rw [mul, hm, mul_zero, roundToDouble, if_pos]
    simp only [quantumExponent, log2Fuel_self, Nat.log2_zero, Nat.cast_zero, zero_add]
    have := r.exponent_ge
    omega
  rw [ceilMul, h0]
  simp only [ceilPow2, floorPow2, zero_mul, Nat.zero_div, zero_add]
  split_ifs <;> simp [Nat.div_eq_of_lt (Nat.sub_lt (Nat.two_pow_pos _) one_pos)]

end FeeRate

/-- **The fee grows with the rate.** Rounding to a double, `Math.ceil` and `Math.max` are all
monotone; a negative rate is charged one satoshi per virtual byte. -/
theorem feeFor_le_of_toRat_le {r r' : FeeRate} (h : r'.toRat ≤ r.toRat) (vsize : ℕ) :
    feeFor vsize r' ≤ feeFor vsize r := by
  unfold feeFor
  cases hr' : r'.negative
  · cases hr : r.negative
    · have hu : r'.units ≤ r.units := by
        rw [r'.toRat_eq_units, r.toRat_eq_units, hr, hr'] at h
        simp only [Bool.false_eq_true, if_false, one_mul] at h
        exact_mod_cast (div_le_div_iff_of_pos_right (by positivity)).1 h
      rw [r'.ceilMul_of_not_negative hr', r.ceilMul_of_not_negative hr]
      exact max_le_max (Int.ofNat_le.2 (ceilUnits_mono (roundUnits_mono
        (Nat.mul_le_mul_left _ hu)))) le_rfl
    · -- a rate not below a non-negative one is not negative, unless both are zero
      have hm : r'.mantissa = 0 := by
        have h₁ : 0 ≤ (r'.mantissa : ℚ) * 2 ^ r'.exponent := by positivity
        have h₂ : 0 ≤ (r.mantissa : ℚ) * 2 ^ r.exponent := by positivity
        simp only [FeeRate.toRat, hr, hr', if_true, Bool.false_eq_true, if_false, one_mul,
          neg_one_mul, neg_mul] at h
        have h₃ : (r'.mantissa : ℚ) * 2 ^ r'.exponent = 0 := by linarith
        exact_mod_cast (mul_eq_zero.1 h₃).resolve_right (by positivity)
      rw [r'.ceilMul_of_mantissa_eq_zero hm]
      exact max_le ((Int.natCast_nonneg _).trans (le_max_right _ _)) (le_max_right _ _)
  · exact max_le ((r'.ceilMul_nonpos_of_negative hr' vsize).trans (by omega)) (le_max_right _ _)

theorem le_ceilPow2 (m : ℕ) (q : ℤ) : (m : ℚ) * 2 ^ q ≤ ceilPow2 m q := by
  unfold ceilPow2
  split_ifs with h0
  · rw [← Int.toNat_of_nonneg h0, zpow_natCast]; push_cast; rfl
  · obtain ⟨j, hj⟩ : ∃ j : ℕ, (-q).toNat = j := ⟨_, rfl⟩
    rw [hj, show (2 : ℚ) ^ q = ((2 : ℚ) ^ j)⁻¹ by rw [show q = -(j : ℤ) by omega, zpow_neg,
      zpow_natCast], ← div_eq_mul_inv, div_le_iff₀ (by positivity)]
    have hb := Nat.two_pow_pos j
    have hle : m ≤ (m + 2 ^ j - 1) / 2 ^ j * 2 ^ j := by
      generalize 2 ^ j = b at hb ⊢
      have h₁ := Nat.div_add_mod (m + b - 1) b
      have h₂ := Nat.mod_lt (m + b - 1) hb
      rw [mul_comm]; omega
    exact_mod_cast hle

theorem floorPow2_le (m : ℕ) (q : ℤ) : (floorPow2 m q : ℚ) ≤ (m : ℚ) * 2 ^ q := by
  unfold floorPow2
  split_ifs with h0
  · rw [← Int.toNat_of_nonneg h0, zpow_natCast]; push_cast; rfl
  · obtain ⟨j, hj⟩ : ∃ j : ℕ, (-q).toNat = j := ⟨_, rfl⟩
    rw [hj, show (2 : ℚ) ^ q = ((2 : ℚ) ^ j)⁻¹ by rw [show q = -(j : ℤ) by omega, zpow_neg,
      zpow_natCast], ← div_eq_mul_inv, le_div_iff₀ (by positivity)]
    exact_mod_cast Nat.div_mul_le_self _ _

/-- **The fee covers the product as JavaScript computes it.** It may still fall short of the
exact product `vsize · feeRate`, by less than the rounding of that product. -/
theorem FeeRate.mulValue_le_feeFor (r : FeeRate) (vsize : ℕ) :
    r.mulValue vsize ≤ feeFor vsize r := by
  refine le_trans ?_ (Int.cast_le.2 (le_max_left _ _))
  unfold FeeRate.mulValue FeeRate.ceilMul
  cases r.negative
  · simpa using le_ceilPow2 _ _
  · simpa using floorPow2_le _ _

end ChainInscription
