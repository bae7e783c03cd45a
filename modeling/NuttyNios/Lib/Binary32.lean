import NuttyNios.Lib.Rounding
/-!
# IEEE 754 binary32

A float is its bit pattern, and `value` the rational number it denotes (the pattern of an infinity or a
NaN is read as if its exponent were one more). `round` is the float nearest to a rational number, ties to
even, so an arithmetic operation is `round` of the exact result. What is known of a rounding: it is exact
on values of floats scaled by a power of two (`value_round_scale`), and takes an integer to 24 bits
(`value_ofInt`).
-/

namespace Binary32

/-! ## The fields and the value -/

/-- The biased exponent. -/
def exponent (b : BitVec 32) : Nat := b.toNat / 2 ^ 23 % 2 ^ 8

def fraction (b : BitVec 32) : Nat := b.toNat % 2 ^ 23

/-- The significand as an integer, with the implicit one of a normal number. -/
def significand (b : BitVec 32) : Nat := if exponent b = 0 then fraction b else 2 ^ 23 + fraction b

/-- The weight of the significand's last bit. -/
def scale (b : BitVec 32) : Int := max 1 (exponent b : Int) - 150

def value (b : BitVec 32) : ℚ := (if b.msb then -1 else 1) * (significand b * 2 ^ scale b)

/-! ## Rounding -/

/-- The nearest integer, the even one of two. -/
def nearestEven (q : ℚ) : ℤ :=
  if q - ⌊q⌋ < 1 / 2 then ⌊q⌋ else if 1 / 2 < q - ⌊q⌋ then ⌊q⌋ + 1 else ⌊q⌋ + ⌊q⌋ % 2

/-- The significand of the nearest float to `q`, in units of `2 ^ (e - 23)`. -/
def roundSignificand (q : ℚ) (e : Int) : Nat := (nearestEven (|q| / 2 ^ (e - 23))).toNat

/-- The nearest float; past the largest one, infinity. A significand that is rounded up to `2 ^ 24`
carries into the exponent. -/
def round (q : ℚ) : BitVec 32 :=
  if q = 0 then 0
  else
    let e := max (Int.log 2 |q|) (-126)
    let magnitude := min ((e + 126).toNat * 2 ^ 23 + roundSignificand q e) (255 * 2 ^ 23)
    BitVec.ofNat 32 (magnitude + if q < 0 then 2 ^ 31 else 0)

/-- Conversion of an integer. -/
def ofInt (i : ℤ) : BitVec 32 := round i

/-- Division of finite floats, the divisor not zero. -/
def div (a b : BitVec 32) : BitVec 32 := round (value a / value b)

/-! ## The size of a value -/

theorem significand_lt (b : BitVec 32) : significand b < 2 ^ 24 := by
  have := Nat.mod_lt b.toNat (show 0 < 2 ^ 23 by decide)
  unfold significand fraction
  split <;> omega

theorem abs_value (b : BitVec 32) : |value b| = significand b * 2 ^ scale b := by
  have h : (0 : ℚ) ≤ significand b * 2 ^ scale b := by positivity
  unfold value
  split
  · rw [neg_one_mul, abs_neg, abs_of_nonneg h]
  · rw [one_mul, abs_of_nonneg h]

theorem le_abs_value {b : BitVec 32} {k : ℕ} {e : ℤ} (h : 2 ^ k ≤ significand b) (he : e ≤ k + scale b) :
    (2 : ℚ) ^ e ≤ |value b| := by
  have hsig : (2 : ℚ) ^ (k : ℤ) ≤ significand b := by exact_mod_cast h
  rw [abs_value]
  calc (2 : ℚ) ^ e ≤ 2 ^ (k + scale b) := zpow_le_zpow_right₀ (by norm_num) he
    _ = 2 ^ (k : ℤ) * 2 ^ scale b := zpow_add₀ (by norm_num) _ _
    _ ≤ significand b * 2 ^ scale b := by gcongr

theorem abs_value_lt {b : BitVec 32} {k : ℕ} {e : ℤ} (h : significand b < 2 ^ k) (he : k + scale b ≤ e) :
    |value b| < (2 : ℚ) ^ e := by
  have hsig : (significand b : ℚ) < 2 ^ (k : ℤ) := by exact_mod_cast h
  rw [abs_value]
  calc (significand b : ℚ) * 2 ^ scale b < 2 ^ (k : ℤ) * 2 ^ scale b := by gcongr
    _ = 2 ^ (k + scale b) := (zpow_add₀ (by norm_num) _ _).symm
    _ ≤ 2 ^ e := zpow_le_zpow_right₀ (by norm_num) he

/-- **The exponent field bounds the value.** -/
theorem le_exponent_iff (b : BitVec 32) {E : Nat} (hE : 0 < E) :
    E ≤ exponent b ↔ (2 : ℚ) ^ (E - 127 : ℤ) ≤ |value b| := by
  constructor
  · intro h
    have hsig : 2 ^ 23 ≤ significand b := by
      unfold significand
      rw [if_neg (by omega)]
      omega
    exact le_abs_value hsig (by unfold scale; omega)
  · intro h
    by_contra hlt
    refine absurd h (not_le.2 ?_)
    by_cases h0 : exponent b = 0
    · have hsig : significand b < 2 ^ 23 := by
        unfold significand fraction
        rw [if_pos h0]
        exact Nat.mod_lt _ (by decide)
      exact abs_value_lt hsig (by unfold scale; omega)
    · exact abs_value_lt (significand_lt b) (by unfold scale; omega)

theorem exponent_lt_iff (b : BitVec 32) {E : Nat} (hE : 0 < E) :
    exponent b < E ↔ |value b| < (2 : ℚ) ^ (E - 127 : ℤ) := by
  rw [← not_le, le_exponent_iff b hE, not_le]

/-! ## The nearest integer -/

theorem nearestEven_cases (q : ℚ) : nearestEven q = ⌊q⌋ ∨ nearestEven q = ⌊q⌋ + 1 := by
  unfold nearestEven
  split_ifs <;> omega

theorem nearestEven_intCast (n : ℤ) : nearestEven n = n := by
  simp [nearestEven]

/-- The nearest integer to a quotient, from the remainder. -/
theorem nearestEven_div (n : ℕ) {d : ℕ} (hd : 0 < d) : nearestEven ((n : ℚ) / d) =
    ((if 2 * (n % d) < d ∨ (2 * (n % d) = d ∧ n / d % 2 = 0) then n / d else n / d + 1 : ℕ) : ℤ) := by
  have hd' : (0 : ℚ) < d := by exact_mod_cast hd
  have hfloor : ⌊(n : ℚ) / d⌋ = (n / d : ℕ) := Rat.floor_natCast_div_natCast n d
  have hfrac : (n : ℚ) / d - (n / d : ℕ) = (n % d : ℕ) / d := by
    rw [eq_div_iff hd'.ne', sub_mul, div_mul_cancel₀ _ hd'.ne', sub_eq_iff_eq_add]
    exact_mod_cast (Nat.mod_add_div' n d).symm
  have hlt : ((n % d : ℕ) : ℚ) / d < 1 / 2 ↔ 2 * (n % d) < d := by
    rw [div_lt_div_iff₀ hd' (by norm_num), one_mul, mul_comm]
    exact_mod_cast Iff.rfl
  have hgt : (1 : ℚ) / 2 < (n % d : ℕ) / d ↔ d < 2 * (n % d) := by
    rw [div_lt_div_iff₀ (by norm_num) hd', one_mul, mul_comm]
    exact_mod_cast Iff.rfl
  unfold nearestEven
  rw [hfloor, Int.cast_natCast, hfrac]
  simp only [hlt, hgt]
  split_ifs <;> omega

theorem nearestEven_toBits (p n : ℕ) :
    (nearestEven ((n : ℚ) / 2 ^ (n.size - p)) : ℚ) * 2 ^ (n.size - p) = Rounding.toBits p n := by
  have hdiv := nearestEven_div n (show 0 < 2 ^ (n.size - p) by positivity)
  rw [Nat.cast_pow, Nat.cast_ofNat] at hdiv
  rw [hdiv, Rounding.toBits]
  push_cast
  rfl

theorem le_nearestEven {a : ℤ} {q : ℚ} (h : (a : ℚ) ≤ q) : a ≤ nearestEven q := by
  have hfloor := Int.le_floor.2 h
  rcases nearestEven_cases q with he | he <;> omega

theorem nearestEven_le {a : ℤ} {q : ℚ} (h : q ≤ a) : nearestEven q ≤ a := by
  by_cases he : q = a
  · rw [he, nearestEven_intCast]
  · have hfloor := Int.floor_lt.2 (lt_of_le_of_ne h he)
    rcases nearestEven_cases q with he | he <;> omega

/-! ## What a rounded number is -/

/-- A sign, a biased exponent and a significand, packed. -/
theorem value_fields {E m : Nat} (hE : 0 < E) (hE' : E < 2 ^ 8) (hm : m < 2 ^ 23) (neg : Prop) [Decidable neg] :
    value (BitVec.ofNat 32 (E * 2 ^ 23 + m + if neg then 2 ^ 31 else 0)) =
      (if neg then -1 else 1) * ((2 ^ 23 + m : Nat) * 2 ^ (E - 150 : ℤ)) := by
  have hNat : (BitVec.ofNat 32 (E * 2 ^ 23 + m + if neg then 2 ^ 31 else 0)).toNat =
      E * 2 ^ 23 + m + if neg then 2 ^ 31 else 0 := by
    rw [BitVec.toNat_ofNat, Nat.mod_eq_of_lt]
    split <;> omega
  have hexp : exponent (BitVec.ofNat 32 (E * 2 ^ 23 + m + if neg then 2 ^ 31 else 0)) = E := by
    rw [exponent, hNat]
    split <;> omega
  have hfrac : fraction (BitVec.ofNat 32 (E * 2 ^ 23 + m + if neg then 2 ^ 31 else 0)) = m := by
    rw [fraction, hNat]
    split <;> omega
  have hmsb : (BitVec.ofNat 32 (E * 2 ^ 23 + m + if neg then 2 ^ 31 else 0)).msb = decide neg := by
    rw [BitVec.msb_eq_decide, hNat]
    by_cases h : neg
    · simp [h]
    · simp only [h, if_false, decide_false, decide_eq_false_iff_not]
      omega
  have hscale : max 1 (E : ℤ) - 150 = E - 150 := by rw [max_eq_right (by omega)]
  rw [value, significand, scale, hexp, hfrac, hmsb, if_neg hE.ne', hscale]
  simp only [decide_eq_true_eq]

/-- A significand of 24 bits, or `2 ^ 24`, which carries into the exponent. -/
theorem value_pack {F m : Nat} (hF : F ≤ 252) (hlo : 2 ^ 23 ≤ m) (hhi : m ≤ 2 ^ 24) (neg : Prop) [Decidable neg] :
    value (BitVec.ofNat 32 (F * 2 ^ 23 + m + if neg then 2 ^ 31 else 0)) =
      (if neg then -1 else 1) * (m * 2 ^ (F - 149 : ℤ)) := by
  rcases hhi.lt_or_eq with h | rfl
  · have hm : F * 2 ^ 23 + m = (F + 1) * 2 ^ 23 + (m - 2 ^ 23) := by omega
    rw [hm, value_fields (by omega) (by omega) (by omega), Nat.add_sub_cancel' hlo]
    push_cast
    congr 3
    ring
  · have hm : F * 2 ^ 23 + 2 ^ 24 = (F + 2) * 2 ^ 23 + 0 := by omega
    have hexp : ((F + 2 : Nat) - 150 : ℤ) = 1 + (F - 149) := by push_cast; ring
    rw [hm, value_fields (by omega) (by omega) (by omega), hexp, zpow_add₀ (by norm_num)]
    push_cast
    ring

theorem log_natCast {n : ℕ} (h : 0 < n) : Int.log 2 (n : ℚ) = n.size - 1 := by
  have hpos : 0 < n.size := Nat.size_pos.2 h
  have hlo : 2 ^ (n.size - 1) ≤ n := Nat.lt_size.1 (by omega)
  have hhi : n < 2 ^ n.size := Nat.lt_size_self n
  have h0 : (0 : ℚ) < n := by exact_mod_cast h
  have h1 := (Int.zpow_le_iff_le_log (b := 2) (x := ((n.size - 1 : ℕ) : ℤ)) (by norm_num) h0).1 (by
    rw [zpow_natCast]
    exact_mod_cast hlo)
  have h2 := (Int.lt_zpow_iff_log_lt (b := 2) (x := (n.size : ℤ)) (by norm_num) h0).1 (by
    rw [zpow_natCast]
    exact_mod_cast hhi)
  omega

/-- The significand of a rounded number has 24 bits, or is `2 ^ 24`. -/
theorem nearestEven_bounds {q : ℚ} (hpos : 0 < |q|) : 2 ^ 23 ≤ nearestEven (|q| / 2 ^ (Int.log 2 |q| - 23)) ∧
    nearestEven (|q| / 2 ^ (Int.log 2 |q| - 23)) ≤ 2 ^ 24 := by
  have hlo := Int.zpow_log_le_self (b := 2) (by norm_num) hpos
  have hhi := Int.lt_zpow_succ_log_self (b := 2) (by norm_num) |q|
  have hunit : (2 : ℚ) ^ Int.log 2 |q| = 2 ^ 23 * 2 ^ (Int.log 2 |q| - 23) := by
    rw [← zpow_natCast, ← zpow_add₀ (by norm_num)]
    congr 1
    push_cast
    ring
  rw [Nat.cast_ofNat] at hlo hhi
  constructor
  · apply le_nearestEven
    rw [le_div_iff₀ (by positivity)]
    push_cast
    linarith
  · apply nearestEven_le
    rw [div_le_iff₀ (by positivity)]
    rw [zpow_add_one₀ (by norm_num)] at hhi
    push_cast
    linarith

theorem sign_mul_abs (q : ℚ) : (if q < 0 then -1 else 1) * |q| = q := by
  split_ifs with h
  · rw [abs_of_neg h, neg_mul_neg, one_mul]
  · rw [abs_of_nonneg (not_lt.1 h), one_mul]

section
variable {q : ℚ} (hlo : (2 : ℚ) ^ (-126 : ℤ) ≤ |q|) (hhi : |q| < (2 : ℚ) ^ (127 : ℤ))
include hlo hhi

theorem log_bounds : -126 ≤ Int.log 2 |q| ∧ Int.log 2 |q| ≤ 126 := by
  have hpos : 0 < |q| := lt_of_lt_of_le (by positivity) hlo
  have h1 := (Int.zpow_le_iff_le_log (b := 2) (by norm_num) hpos).1 hlo
  have h2 := (Int.lt_zpow_iff_log_lt (b := 2) (by norm_num) hpos).1 hhi
  omega

theorem value_round : value (round q) =
    (if q < 0 then -1 else 1) * (nearestEven (|q| / 2 ^ (Int.log 2 |q| - 23)) * 2 ^ (Int.log 2 |q| - 23)) := by
  obtain ⟨hl, hu⟩ := log_bounds hlo hhi
  have hpos : 0 < |q| := lt_of_lt_of_le (by positivity) hlo
  obtain ⟨hslo, hshi⟩ := nearestEven_bounds hpos
  have he : max (Int.log 2 |q|) (-126) = Int.log 2 |q| := max_eq_left hl
  have hsig : ((roundSignificand q (Int.log 2 |q|) : ℕ) : ℤ) = nearestEven (|q| / 2 ^ (Int.log 2 |q| - 23)) :=
    Int.toNat_of_nonneg (by omega)
  have hexp : ((Int.log 2 |q| + 126).toNat - 149 : ℤ) = Int.log 2 |q| - 23 := by omega
  rw [round, if_neg (abs_pos.1 hpos)]
  simp only [he]
  rw [min_eq_left (by omega), value_pack (by omega) (by omega) (by omega), hexp, ← hsig]
  rfl

/-- **Rounding is exact on 24 bits.** -/
theorem value_round_eq {m : ℕ} {k : ℤ} (hm : m < 2 ^ 24) (hq : |q| = m * 2 ^ k) : value (round q) = q := by
  have hpos : 0 < |q| := lt_of_lt_of_le (by positivity) hlo
  have hlog : Int.log 2 |q| < 24 + k := by
    rw [← Int.lt_zpow_iff_log_lt (by norm_num) hpos, hq, Nat.cast_ofNat, zpow_add₀ (by norm_num)]
    have hm' : (m : ℚ) < 2 ^ (24 : ℤ) := by exact_mod_cast hm
    gcongr
  obtain ⟨j, hj⟩ : ∃ j : ℕ, k = j + (Int.log 2 |q| - 23) := ⟨(k - (Int.log 2 |q| - 23)).toNat, by omega⟩
  have hint : |q| / 2 ^ (Int.log 2 |q| - 23) = ((m * 2 ^ j : ℤ) : ℚ) := by
    rw [div_eq_iff (by positivity)]
    conv_lhs => rw [hq, hj, zpow_add₀ (by norm_num), ← mul_assoc]
    push_cast
    rw [zpow_natCast]
  rw [value_round hlo hhi, hint, nearestEven_intCast, ← hint, div_mul_cancel₀ _ (by positivity), sign_mul_abs]

end

/-- **Conversion of an integer rounds it to 24 bits.** -/
theorem value_ofInt {n : ℤ} (h0 : n ≠ 0) (h : n.natAbs < 2 ^ 127) : value (ofInt n) = Rounding.toBitsInt 24 n := by
  have habs : |(n : ℚ)| = n.natAbs := by
    rw [← Int.cast_abs, Int.abs_eq_natAbs, Int.cast_natCast]
  have hlo : (2 : ℚ) ^ (-126 : ℤ) ≤ |(n : ℚ)| := by
    have hone : (1 : ℚ) ≤ n.natAbs := by exact_mod_cast Int.natAbs_pos.2 h0
    rw [habs]
    exact (zpow_le_one_of_nonpos₀ (by norm_num) (by norm_num)).trans hone
  have hhi : |(n : ℚ)| < 2 ^ (127 : ℤ) := by
    rw [habs]
    exact_mod_cast h
  by_cases hbits : n.natAbs < 2 ^ 24
  · rw [ofInt, value_round_eq hlo hhi hbits (k := 0) (by rw [habs, zpow_zero, mul_one]),
      Rounding.toBitsInt_of_lt hbits]
  · have hlog := log_natCast (show 0 < n.natAbs by omega)
    have hsize := Nat.lt_size.2 (not_lt.1 hbits)
    have hunit : Int.log 2 |(n : ℚ)| - 23 = (n.natAbs.size - 24 : ℕ) := by
      rw [habs, hlog]
      omega
    rw [ofInt, value_round hlo hhi, hunit, habs, zpow_natCast, nearestEven_toBits, Rounding.toBitsInt]
    rcases lt_or_gt_of_ne h0 with hneg | hpos
    · rw [if_pos (by exact_mod_cast hneg), Int.sign_eq_neg_one_of_neg hneg]
      push_cast
      rfl
    · rw [if_neg (not_lt.2 (by exact_mod_cast hpos.le)), Int.sign_eq_one_of_pos hpos]
      push_cast
      rfl

/-- **A float scaled by a power of two is a float**, as long as it stays in the normal range. -/
theorem value_round_scale (b : BitVec 32) (j : ℤ) (hlo : (2 : ℚ) ^ (-126 : ℤ) ≤ |value b * 2 ^ j|)
    (hhi : |value b * 2 ^ j| < (2 : ℚ) ^ (127 : ℤ)) : value (round (value b * 2 ^ j)) = value b * 2 ^ j := by
  apply value_round_eq hlo hhi (significand_lt b) (k := scale b + j)
  rw [abs_mul, abs_value, abs_of_pos (by positivity : (0 : ℚ) < 2 ^ j), mul_assoc, zpow_add₀ (by norm_num)]

end Binary32
