import NuttyNios.Fixed
import NuttyNios.Lib.Binary32
/-!
# `float_to_fixed23` and `fixed23_to_float` (main.c:116-129)

`float_to_fixed23` takes the pattern of a float apart with masks and shifts; here the pattern is read
as a rational number, `Binary32.value`. Main results: `floatToFixed23_eq`, the number times `2 ^ 23`,
towards zero and in 32 bits, while the exponent asks for a shift by less than 32;
`floatToFixed23_truncates_iff`, which of the floats in range that covers (not zero, nor anything below
`2 ^ -31`); `fixed23_roundtrip_iff`, that a Q23 number survives the way to `float` and back but for the
24 bits of precision, up to `2 ^ 31 - 64`.
-/

namespace NuttyNios
open Rounding

/-- The integer part of a rational number, towards zero. -/
def truncate (q : ℚ) : ℤ := if q < 0 then ⌈q⌉ else ⌊q⌋

/-- `fixed23_to_float` (main.c:127). -/
def fixed23ToFloat (fixed : BitVec 32) : BitVec 32 :=
  Binary32.div (Binary32.ofInt fixed.toInt) (Binary32.ofInt (1 <<< 23))

/-! ## Truncation -/

theorem truncate_of_nonneg {q : ℚ} (h : 0 ≤ q) : truncate q = ⌊q⌋ := if_neg (not_lt.2 h)

theorem truncate_neg (q : ℚ) : truncate (-q) = -truncate q := by
  unfold truncate
  rcases lt_trichotomy q 0 with h | rfl | h
  · rw [if_neg (by linarith), if_pos h, Int.floor_neg]
  · simp
  · rw [if_pos (by linarith), if_neg (by linarith), Int.ceil_neg]

theorem truncate_intCast (n : ℤ) : truncate n = n := by
  simp [truncate]

theorem truncate_mem {q : ℚ} {a b : ℤ} (hb : 0 < b) (hlo : a ≤ q) (hhi : q < b) :
    a ≤ truncate q ∧ truncate q < b := by
  unfold truncate
  split_ifs with h
  · have hnonpos : ⌈q⌉ ≤ 0 := Int.ceil_le.2 (by exact_mod_cast h.le)
    exact ⟨by exact_mod_cast hlo.trans (Int.le_ceil q), by omega⟩
  · exact ⟨Int.le_floor.2 hlo, Int.floor_lt.2 hhi⟩

/-- Truncation is off by less than one. -/
theorem abs_truncate_sub_lt (q : ℚ) : |(truncate q : ℚ) - q| < 1 := by
  have hfloor := Int.floor_le q
  have hfloor' := Int.lt_floor_add_one q
  have hceil := Int.le_ceil q
  have hceil' := Int.ceil_lt_add_one q
  unfold truncate
  split_ifs
  · rw [abs_lt]
    constructor <;> linarith
  · rw [abs_lt]
    constructor <;> linarith

theorem toInt_ofInt_of_mem {n : ℤ} (h : -2 ^ 31 ≤ n ∧ n < 2 ^ 31) : (BitVec.ofInt 32 n).toInt = n := by
  rw [BitVec.toInt_ofInt]
  apply Int.bmod_eq_of_le <;> omega

/-! ## The fields of the pattern -/

theorem exponent_field (f : BitVec 32) : ((f >>> 23) &&& 0xFF).toNat = Binary32.exponent f := by
  rw [BitVec.toNat_and, BitVec.toNat_ushiftRight, Nat.shiftRight_eq_div_pow]
  exact Nat.and_two_pow_sub_one_eq_mod _ 8

theorem fraction_field (f : BitVec 32) :
    ((f &&& 0x007FFFFF) ||| 0x00800000).toNat = 2 ^ 23 + Binary32.fraction f := by
  have hmask : (f &&& 0x007FFFFF).toNat = Binary32.fraction f := by
    rw [BitVec.toNat_and]
    exact Nat.and_two_pow_sub_one_eq_mod _ 23
  rw [BitVec.toNat_or, hmask, Nat.or_comm]
  have hlt : Binary32.fraction f < 2 ^ 23 := Nat.mod_lt _ (by decide)
  exact (Nat.two_pow_add_eq_or_of_lt hlt 1).symm

theorem sign_field (f : BitVec 32) : f &&& 0x80000000 ≠ 0 ↔ f.msb = true := by
  have hbit : (f &&& 0x80000000).toNat = f.msb.toNat * 2 ^ 31 := by
    rw [BitVec.toNat_and]
    exact Nat.and_two_pow _ 31
  rw [ne_eq, ← BitVec.toNat_inj, hbit]
  cases f.msb <;> simp

/-! ## `float_to_fixed23` -/

/-- The shift scales by a power of two, rounding down. -/
theorem shift_eq (x : BitVec 32) {e : ℤ} (hlo : -32 < e) (hhi : e < 32) :
    (if e < 0 then shr x (-e).toNat else shl x e.toNat) = .ok (BitVec.ofInt 32 ⌊(x.toNat : ℚ) * 2 ^ e⌋) := by
  split_ifs with h
  · obtain ⟨k, rfl⟩ : ∃ k : ℕ, e = -k := ⟨(-e).toNat, by omega⟩
    have hfloor : ⌊(x.toNat : ℚ) * 2 ^ (-k : ℤ)⌋ = (x.toNat / 2 ^ k : ℕ) := by
      rw [zpow_neg, zpow_natCast, ← div_eq_mul_inv]
      exact_mod_cast Rat.floor_natCast_div_natCast _ _
    rw [hfloor, shr, if_pos (by omega), BitVec.ofInt_natCast, neg_neg, Int.toNat_natCast]
    congr 1
    apply BitVec.eq_of_toNat_eq
    rw [BitVec.toNat_ushiftRight, Nat.shiftRight_eq_div_pow, BitVec.toNat_ofNat, Nat.mod_eq_of_lt]
    exact lt_of_le_of_lt (Nat.div_le_self _ _) x.isLt
  · obtain ⟨k, rfl⟩ : ∃ k : ℕ, e = k := ⟨e.toNat, by omega⟩
    have hfloor : ⌊(x.toNat : ℚ) * 2 ^ (k : ℤ)⌋ = (x.toNat * 2 ^ k : ℕ) := by
      rw [zpow_natCast]
      exact_mod_cast Int.floor_natCast (x.toNat * 2 ^ k)
    rw [hfloor, shl, if_pos (by omega), BitVec.ofInt_natCast, Int.toNat_natCast]
    congr 1
    apply BitVec.eq_of_toNat_eq
    rw [BitVec.toNat_shiftLeft, Nat.shiftLeft_eq, BitVec.toNat_ofNat]

theorem floatToFixed23_of_shift {f x : BitVec 32}
    (h : (if (Binary32.exponent f : ℤ) - 127 < 0
      then shr ((f &&& 0x007FFFFF) ||| 0x00800000) (-((Binary32.exponent f : ℤ) - 127)).toNat
      else shl ((f &&& 0x007FFFFF) ||| 0x00800000) ((Binary32.exponent f : ℤ) - 127).toNat) = .ok x) :
    floatToFixed23 f = .ok (if f.msb then -x else x) := by
  rw [floatToFixed23]
  simp only [exponent_field, sign_field]
  split_ifs at h ⊢ <;> rw [h] <;> rfl

/-- **What `float_to_fixed23` computes** where the shift is defined: `f * 2 ^ 23` towards zero,
in 32 bits. -/
theorem floatToFixed23_eq {f : BitVec 32} (hlo : 96 ≤ Binary32.exponent f) (hhi : Binary32.exponent f ≤ 158) :
    floatToFixed23 f = .ok (BitVec.ofInt 32 (truncate (Binary32.value f * 2 ^ 23))) := by
  have hsig : Binary32.significand f = 2 ^ 23 + Binary32.fraction f := if_neg (by omega)
  have hscale : Binary32.scale f + 23 = Binary32.exponent f - 127 := by
    unfold Binary32.scale
    omega
  have hscaled : (Binary32.significand f : ℚ) * 2 ^ Binary32.scale f * 2 ^ 23 =
      (Binary32.significand f : ℚ) * 2 ^ (Binary32.exponent f - 127 : ℤ) := by
    rw [mul_assoc, ← zpow_natCast, ← zpow_add₀ (by norm_num), ← hscale]
    rfl
  have hshift := shift_eq ((f &&& 0x007FFFFF) ||| 0x00800000) (e := Binary32.exponent f - 127) (by omega) (by omega)
  rw [fraction_field, ← hsig, ← hscaled] at hshift
  have hnonneg : (0 : ℚ) ≤ Binary32.significand f * 2 ^ Binary32.scale f * 2 ^ 23 := by positivity
  rw [floatToFixed23_of_shift hshift, Binary32.value]
  congr 1
  split_ifs
  · rw [neg_one_mul, neg_mul, truncate_neg, truncate_of_nonneg hnonneg, BitVec.ofInt_neg]
  · rw [one_mul, truncate_of_nonneg hnonneg]

/-- Below `2 ^ -31` the shift is by 32 or more. -/
theorem floatToFixed23_underflow {f : BitVec 32} (h : Binary32.exponent f < 96) :
    floatToFixed23 f = .error .shift := by
  rw [floatToFixed23]
  simp only [exponent_field]
  rw [if_pos (by omega), shr, if_neg (by omega)]
  rfl

/-- **Where `float_to_fixed23` truncates.** An infinity or a NaN, whose exponent field would make
it `2 ^ 128` or more, is outside the range. -/
theorem floatToFixed23_truncates_iff (f : BitVec 32) (hlo : -256 ≤ Binary32.value f) (hhi : Binary32.value f < 256) :
    (∃ r, floatToFixed23 f = .ok r ∧ r.toInt = truncate (Binary32.value f * 2 ^ 23)) ↔
      (2 : ℚ) ^ (-31 : ℤ) ≤ |Binary32.value f| := by
  have hiff : 96 ≤ Binary32.exponent f ↔ (2 : ℚ) ^ (-31 : ℤ) ≤ |Binary32.value f| :=
    Binary32.le_exponent_iff f (by decide)
  rw [← hiff]
  constructor
  · rintro ⟨r, hr, -⟩
    by_contra h
    rw [floatToFixed23_underflow (not_le.1 h)] at hr
    cases hr
  · intro h
    have hlt : Binary32.exponent f < 159 := by
      rw [Binary32.exponent_lt_iff f (by decide)]
      calc |Binary32.value f| ≤ 256 := abs_le.2 ⟨hlo, hhi.le⟩
        _ < 2 ^ ((159 : ℕ) - 127 : ℤ) := by norm_num
    refine ⟨_, floatToFixed23_eq h (by omega), ?_⟩
    apply toInt_ofInt_of_mem
    apply truncate_mem <;> push_cast <;> linarith

/-- The coefficient one comes out as `2 ^ 23`. -/
theorem floatToFixed23_truncates_one :
    ∃ r, floatToFixed23 0x3F800000 = .ok r ∧ r.toInt = truncate (Binary32.value 0x3F800000 * 2 ^ 23) :=
  (floatToFixed23_truncates_iff _ (by decide +kernel) (by decide +kernel)).2 (by decide +kernel)

/-- Zero does not: its exponent field asks for a shift by 127. -/
theorem floatToFixed23_zero : -256 ≤ Binary32.value 0 ∧ Binary32.value 0 < 256 ∧ floatToFixed23 0 = .error .shift ∧
    ¬∃ r, floatToFixed23 0 = .ok r ∧ r.toInt = truncate (Binary32.value 0 * 2 ^ 23) := by
  have hundef : floatToFixed23 0 = .error .shift := rfl
  refine ⟨by decide +kernel, by decide +kernel, hundef, ?_⟩
  rintro ⟨r, hr, -⟩
  rw [hundef] at hr
  cases hr

/-! ## `fixed23_to_float` and back -/

theorem natAbs_toInt_le (v : BitVec 32) : v.toInt.natAbs ≤ 2 ^ 31 := by
  have hlo := BitVec.le_toInt v
  have hhi := BitVec.toInt_lt (x := v)
  omega

theorem toInt_ne_zero {v : BitVec 32} (hv : v ≠ 0) : v.toInt ≠ 0 := by
  rw [ne_eq, ← BitVec.toInt_zero, BitVec.toInt_inj]
  exact hv

theorem abs_toBitsInt_mem {v : BitVec 32} (hv : v ≠ 0) :
    (1 : ℚ) ≤ |(toBitsInt 24 v.toInt : ℚ)| ∧ |(toBitsInt 24 v.toInt : ℚ)| ≤ 2 ^ 31 := by
  have hone : 2 ^ 0 ≤ toBits 24 v.toInt.natAbs := le_toBits (by decide) (Int.natAbs_pos.2 (toInt_ne_zero hv))
  have htop : toBits 24 v.toInt.natAbs ≤ 2 ^ 31 := toBits_le (natAbs_toInt_le v) (by decide) (by decide)
  rw [← Int.cast_abs, Int.abs_eq_natAbs, natAbs_toBitsInt, Int.cast_natCast]
  exact ⟨by exact_mod_cast hone, by exact_mod_cast htop⟩

/-- **What `fixed23_to_float` computes**: the quotient, rounded to 24 bits. -/
theorem value_fixed23ToFloat {v : BitVec 32} (hv : v ≠ 0) :
    Binary32.value (fixed23ToFloat v) = toBitsInt 24 v.toInt * 2 ^ (-23 : ℤ) := by
  obtain ⟨hone, htop⟩ := abs_toBitsInt_mem hv
  have hnum : Binary32.value (Binary32.ofInt v.toInt) = toBitsInt 24 v.toInt :=
    Binary32.value_ofInt (toInt_ne_zero hv) (lt_of_le_of_lt (natAbs_toInt_le v) (by decide))
  have hden : Binary32.value (Binary32.ofInt (1 <<< 23)) = 2 ^ (23 : ℤ) := by
    have hshift : (1 <<< 23 : ℤ) = 2 ^ 23 := rfl
    rw [hshift, Binary32.value_ofInt (by decide) (by decide), toBitsInt_of_lt (by decide)]
    norm_num
  have habs : |(toBitsInt 24 v.toInt : ℚ) * 2 ^ (-23 : ℤ)| = |(toBitsInt 24 v.toInt : ℚ)| * 2 ^ (-23 : ℤ) := by
    rw [abs_mul, abs_of_pos (by positivity : (0 : ℚ) < 2 ^ (-23 : ℤ))]
  rw [fixed23ToFloat, Binary32.div, hden, div_eq_mul_inv, ← zpow_neg, ← hnum]
  apply Binary32.value_round_scale
  · rw [hnum, habs]
    calc (2 : ℚ) ^ (-126 : ℤ) ≤ 1 * 2 ^ (-23 : ℤ) := by norm_num
      _ ≤ |(toBitsInt 24 v.toInt : ℚ)| * 2 ^ (-23 : ℤ) := by gcongr
  · rw [hnum, habs]
    calc |(toBitsInt 24 v.toInt : ℚ)| * 2 ^ (-23 : ℤ) ≤ 2 ^ 31 * 2 ^ (-23 : ℤ) := by gcongr
      _ < 2 ^ (127 : ℤ) := by norm_num

/-- There and back, the 24 bits are all that is lost. -/
theorem floatToFixed23_fixed23ToFloat {v : BitVec 32} (hv : v ≠ 0) :
    floatToFixed23 (fixed23ToFloat v) = .ok (BitVec.ofInt 32 (toBitsInt 24 v.toInt)) := by
  obtain ⟨hone, htop⟩ := abs_toBitsInt_mem hv
  have habs : |Binary32.value (fixed23ToFloat v)| = |(toBitsInt 24 v.toInt : ℚ)| * 2 ^ (-23 : ℤ) := by
    rw [value_fixed23ToFloat hv, abs_mul, abs_of_pos (by positivity : (0 : ℚ) < 2 ^ (-23 : ℤ))]
  have h96 : 96 ≤ Binary32.exponent (fixed23ToFloat v) := by
    rw [Binary32.le_exponent_iff _ (by decide), habs]
    calc (2 : ℚ) ^ ((96 : ℕ) - 127 : ℤ) ≤ 1 * 2 ^ (-23 : ℤ) := by norm_num
      _ ≤ |(toBitsInt 24 v.toInt : ℚ)| * 2 ^ (-23 : ℤ) := by gcongr
  have h159 : Binary32.exponent (fixed23ToFloat v) < 159 := by
    rw [Binary32.exponent_lt_iff _ (by decide), habs]
    calc |(toBitsInt 24 v.toInt : ℚ)| * 2 ^ (-23 : ℤ) ≤ 2 ^ 31 * 2 ^ (-23 : ℤ) := by gcongr
      _ < 2 ^ ((159 : ℕ) - 127 : ℤ) := by norm_num
  have hint : (toBitsInt 24 v.toInt : ℚ) * 2 ^ (-23 : ℤ) * 2 ^ 23 = toBitsInt 24 v.toInt := by
    rw [mul_assoc, ← zpow_natCast, ← zpow_add₀ (by norm_num)]
    norm_num
  rw [floatToFixed23_eq h96 (by omega), value_fixed23ToFloat hv, hint, truncate_intCast]

/-- **The round trip**: to float precision exactly below `2 ^ 31 - 64`. From there on the conversion
to `float` rounds up to 256, which comes back as `-2 ^ 31`. -/
theorem fixed23_roundtrip_iff (v : BitVec 32) (hv : v ≠ 0) :
    (∃ r, floatToFixed23 (fixed23ToFloat v) = .ok r ∧ (|v.toInt| ≤ 2 ^ 24 → r = v) ∧ |r.toInt - v.toInt| ≤ 64 ∧
      r.toInt.sign = v.toInt.sign) ↔ v.toInt < 2 ^ 31 - 64 := by
  have hle := natAbs_toInt_le v
  have hsign := sign_toBitsInt (p := 24) (by decide) v.toInt
  have hbits := natAbs_toBitsInt 24 v.toInt
  have htop : toBits 24 v.toInt.natAbs ≤ 2 ^ 31 := toBits_le hle (by decide) (by decide)
  have hover : toBits 24 v.toInt.natAbs < 2 ^ 31 ↔ v.toInt.natAbs + 64 < 2 ^ 31 :=
    toBits_lt_iff (by decide) (by decide)
  rw [floatToFixed23_fixed23ToFloat hv]
  constructor
  · rintro ⟨r, hr, -, -, hrsign⟩
    cases hr
    by_contra h
    have hpos : v.toInt.sign = 1 := Int.sign_eq_one_of_pos (by omega)
    have heq : toBits 24 v.toInt.natAbs = 2 ^ 31 := by omega
    rw [toBitsInt, hpos, heq] at hrsign
    exact absurd hrsign (by decide)
  · intro h
    have hdist : |toBitsInt 24 v.toInt - v.toInt| ≤ 64 := by
      rcases hle.eq_or_lt with hmin | hlt
      · rw [toBitsInt_two_pow (by decide) hmin, sub_self, abs_zero]
        decide
      · exact abs_toBitsInt_sub_le (by decide) hlt
    have hmem : -2 ^ 31 ≤ toBitsInt 24 v.toInt ∧ toBitsInt 24 v.toInt < 2 ^ 31 := by
      rcases lt_or_gt_of_ne (toInt_ne_zero hv) with hneg | hpos
      · rw [Int.sign_eq_neg_one_of_neg hneg, Int.sign_eq_neg_one_iff_neg] at hsign
        omega
      · omega
    refine ⟨_, rfl, ?_, ?_, ?_⟩
    · intro hsmall
      have hexact : toBitsInt 24 v.toInt = v.toInt := by
        rcases (Int.abs_eq_natAbs v.toInt ▸ hsmall).eq_or_lt with heq | hlt
        · exact toBitsInt_two_pow (by decide) (by exact_mod_cast heq)
        · exact toBitsInt_of_lt (by exact_mod_cast hlt)
      rw [hexact, BitVec.ofInt_toInt]
    · rw [toInt_ofInt_of_mem hmem]
      exact hdist
    · rw [toInt_ofInt_of_mem hmem, hsign]

/-- A negative number that does not fit 24 bits. -/
theorem fixed23_roundtrip_neg :
    ∃ r, floatToFixed23 (fixed23ToFloat (-16777217)) = .ok r ∧
      (|(-16777217 : BitVec 32).toInt| ≤ 2 ^ 24 → r = -16777217) ∧ |r.toInt - (-16777217 : BitVec 32).toInt| ≤ 64 ∧
      r.toInt.sign = (-16777217 : BitVec 32).toInt.sign :=
  (fixed23_roundtrip_iff _ (by decide)).2 (by decide)

/-- The largest `alt_32` comes back as the smallest. -/
theorem fixed23_roundtrip_max : floatToFixed23 (fixed23ToFloat 0x7FFFFFFF) = .ok 0x80000000 ∧
    ¬∃ r, floatToFixed23 (fixed23ToFloat 0x7FFFFFFF) = .ok r ∧
      (|(0x7FFFFFFF : BitVec 32).toInt| ≤ 2 ^ 24 → r = 0x7FFFFFFF) ∧ |r.toInt - (0x7FFFFFFF : BitVec 32).toInt| ≤ 64 ∧
      r.toInt.sign = (0x7FFFFFFF : BitVec 32).toInt.sign := by
  have hmax : floatToFixed23 (fixed23ToFloat 0x7FFFFFFF) = .ok 0x80000000 := by decide +kernel
  refine ⟨hmax, ?_⟩
  rintro ⟨r, hr, -, -, hsign⟩
  rw [hmax] at hr
  cases hr
  exact absurd hsign (by decide)

end NuttyNios
