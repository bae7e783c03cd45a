import Mathlib
/-!
# Rounding integers to a binary precision

`toBits p n` is `n` rounded to `p` significant bits, ties to even: what a conversion of an integer
to a binary float of precision `p` gives while its exponent is in range.
-/

namespace Rounding

def toBits (p n : Nat) : Nat :=
  let e := n.size - p
  let q := n / 2 ^ e
  let r := n % 2 ^ e
  (if 2 * r < 2 ^ e ∨ (2 * r = 2 ^ e ∧ q % 2 = 0) then q else q + 1) * 2 ^ e

/-- A sign and a magnitude rounded apart. -/
def toBitsInt (p : Nat) (i : Int) : Int := i.sign * toBits p i.natAbs

/-- Up to `p` bits nothing is lost. -/
theorem toBits_of_lt {p n : Nat} (h : n < 2 ^ p) : toBits p n = n := by
  have he : n.size - p = 0 := Nat.sub_eq_zero_of_le (Nat.size_le.2 h)
  simp [toBits, he, Nat.mod_one]

theorem toBitsInt_of_lt {p : Nat} {i : Int} (h : i.natAbs < 2 ^ p) : toBitsInt p i = i := by
  rw [toBitsInt, toBits_of_lt h, Int.sign_mul_natAbs]

theorem toBits_two_pow {p k : Nat} (hp : 0 < p) : toBits p (2 ^ k) = 2 ^ k := by
  have hdvd : 2 ^ ((2 ^ k).size - p) ∣ 2 ^ k := by
    rw [Nat.size_pow]
    exact Nat.pow_dvd_pow 2 (by omega)
  have hmod : 2 ^ k % 2 ^ ((2 ^ k).size - p) = 0 := Nat.mod_eq_zero_of_dvd hdvd
  unfold toBits
  dsimp only
  rw [hmod, if_pos (Or.inl (by positivity)), Nat.div_mul_cancel hdvd]

theorem toBitsInt_two_pow {p k : Nat} {i : Int} (hp : 0 < p) (h : i.natAbs = 2 ^ k) : toBitsInt p i = i := by
  rw [toBitsInt, h, toBits_two_pow hp, ← h, Int.sign_mul_natAbs]

theorem natAbs_toBitsInt (p : Nat) (i : Int) : (toBitsInt p i).natAbs = toBits p i.natAbs := by
  unfold toBitsInt
  rw [Int.natAbs_mul]
  by_cases h : i = 0
  · subst h
    simp [toBits]
  · rw [Int.natAbs_sign_of_ne_zero h, one_mul, Int.natAbs_natCast]

/-- Rounding moves a number to one of the two multiples of its unit around it. -/
theorem toBits_cases (p n : Nat) :
    toBits p n = n / 2 ^ (n.size - p) * 2 ^ (n.size - p) ∨
      toBits p n = (n / 2 ^ (n.size - p) + 1) * 2 ^ (n.size - p) := by
  unfold toBits
  dsimp only
  split_ifs
  · exact .inl rfl
  · exact .inr rfl

/-- Rounding is off by at most half a unit. -/
theorem toBits_sub_le (p n : Nat) :
    2 * toBits p n ≤ 2 * n + 2 ^ (n.size - p) ∧ 2 * n ≤ 2 * toBits p n + 2 ^ (n.size - p) := by
  have hdiv := Nat.div_add_mod n (2 ^ (n.size - p))
  have hmod := Nat.mod_lt n (show 0 < 2 ^ (n.size - p) by positivity)
  rw [Nat.mul_comm] at hdiv
  unfold toBits
  dsimp only
  split_ifs
  · omega
  · rw [Nat.add_mul, Nat.one_mul]
    omega

theorem toBits_le {p k n : Nat} (h : n ≤ 2 ^ k) (h0 : 0 < p) (hp : p ≤ k) : toBits p n ≤ 2 ^ k := by
  rcases h.eq_or_lt with rfl | hlt
  · rw [toBits_two_pow h0]
  have hsize : n.size ≤ k := Nat.size_le.2 hlt
  have hpow : 2 ^ k = 2 ^ (k - (n.size - p)) * 2 ^ (n.size - p) := by
    rw [← pow_add]
    congr 1
    omega
  have hq : n / 2 ^ (n.size - p) < 2 ^ (k - (n.size - p)) := by
    rw [Nat.div_lt_iff_lt_mul (by positivity), ← hpow]
    exact hlt
  rw [hpow]
  rcases toBits_cases p n with he | he
  · rw [he]
    exact Nat.mul_le_mul_right _ (Nat.le_of_lt hq)
  · rw [he]
    exact Nat.mul_le_mul_right _ hq

theorem abs_toBitsInt_sub_le {p k : Nat} {i : Int} (hp : p < k) (h : i.natAbs < 2 ^ k) :
    |toBitsInt p i - i| ≤ 2 ^ (k - p - 1) := by
  have hsize : i.natAbs.size ≤ k := Nat.size_le.2 h
  have hpow : 2 ^ (i.natAbs.size - p) ≤ 2 * 2 ^ (k - p - 1) := by
    rw [← pow_succ']
    exact Nat.pow_le_pow_right (by omega) (by omega)
  have hsub := toBits_sub_le p i.natAbs
  have hdist : |(toBits p i.natAbs : Int) - i.natAbs| ≤ (2 ^ (k - p - 1) : Nat) := by
    rw [abs_le]
    constructor <;> omega
  have hsign : toBitsInt p i - i = i.sign * (toBits p i.natAbs - i.natAbs) := by
    rw [mul_sub, Int.sign_mul_natAbs, toBitsInt]
  rcases eq_or_ne i 0 with rfl | hi
  · simp [toBitsInt]
  · rw [hsign, abs_mul, Int.abs_sign_of_ne_zero hi, one_mul]
    exact_mod_cast hdist

theorem le_toBits {p k n : Nat} (hp : 0 < p) (h : 2 ^ k ≤ n) : 2 ^ k ≤ toBits p n := by
  have hsize : k < n.size := Nat.lt_size.2 h
  have hn : 2 ^ (n.size - 1) ≤ n := Nat.lt_size.1 (by omega)
  have hpow : 2 ^ (n.size - 1) = 2 ^ (n.size - 1 - (n.size - p)) * 2 ^ (n.size - p) := by
    rw [← pow_add]
    congr 1
    omega
  have hq : 2 ^ (n.size - 1 - (n.size - p)) ≤ n / 2 ^ (n.size - p) := by
    rw [Nat.le_div_iff_mul_le (by positivity), ← hpow]
    exact hn
  refine (Nat.pow_le_pow_right (by omega) (show k ≤ n.size - 1 by omega)).trans ?_
  rw [hpow]
  rcases toBits_cases p n with he | he
  · rw [he]
    exact Nat.mul_le_mul_right _ hq
  · rw [he]
    exact Nat.mul_le_mul_right _ (Nat.le_succ_of_le hq)

theorem sign_toBitsInt {p : Nat} (hp : 0 < p) (i : Int) : (toBitsInt p i).sign = i.sign := by
  rcases eq_or_ne i 0 with rfl | hi
  · simp [toBitsInt]
  · have hpos : 2 ^ 0 ≤ toBits p i.natAbs := le_toBits hp (Int.natAbs_pos.2 hi)
    have hsign : ((toBits p i.natAbs : Nat) : Int).sign = 1 := Int.sign_eq_one_of_pos (by omega)
    rw [toBitsInt, Int.sign_mul, Int.sign_sign, hsign, mul_one]

/-- With exactly `k` bits only the largest significand can be carried over to `2 ^ k`. -/
theorem toBits_lt_iff_of_size {p k n : Nat} (hp : 0 < p) (hk : p < k) (hsize : n.size = k) :
    toBits p n < 2 ^ k ↔ n + 2 ^ (k - p - 1) < 2 ^ k := by
  have hhalf : 2 ^ (k - p) = 2 * 2 ^ (k - p - 1) := by
    rw [← pow_succ']
    congr 1
    omega
  have hpow : 2 ^ k = 2 ^ p * 2 ^ (k - p) := by
    rw [← pow_add]
    congr 1
    omega
  have heven : 2 ^ p % 2 = 0 := by
    obtain ⟨j, rfl⟩ : ∃ j, p = j + 1 := ⟨p - 1, by omega⟩
    rw [pow_succ, Nat.mul_mod_left]
  have hdiv := Nat.div_add_mod n (2 ^ (k - p))
  have hmod := Nat.mod_lt n (show 0 < 2 ^ (k - p) by positivity)
  have hq : n / 2 ^ (k - p) < 2 ^ p := by
    rw [Nat.div_lt_iff_lt_mul (by positivity), ← hpow]
    exact Nat.size_le.1 hsize.le
  have hone : 0 < 2 ^ (k - p - 1) := by positivity
  simp only [toBits, hsize]
  generalize n / 2 ^ (k - p) = q at *
  generalize n % 2 ^ (k - p) = r at *
  rw [hpow, Nat.mul_lt_mul_right (by positivity), ← hdiv]
  by_cases hlast : q + 1 < 2 ^ p
  · have hmul : (q + 1) * 2 ^ (k - p) < 2 ^ p * 2 ^ (k - p) := Nat.mul_lt_mul_of_pos_right hlast (by positivity)
    have hmul2 : (q + 1 + 1) * 2 ^ (k - p) ≤ 2 ^ p * 2 ^ (k - p) := Nat.mul_le_mul_right _ hlast
    have hlt : (if 2 * r < 2 ^ (k - p) ∨ 2 * r = 2 ^ (k - p) ∧ q % 2 = 0 then q else q + 1) < 2 ^ p := by
      split_ifs <;> omega
    refine iff_of_true hlt ?_
    rw [Nat.mul_comm (2 ^ (k - p)) q]
    rw [Nat.add_mul, Nat.add_mul] at hmul2
    omega
  · have hq1 : q + 1 = 2 ^ p := by omega
    rw [← hq1, Nat.mul_comm (2 ^ (k - p)) q, Nat.add_mul, Nat.one_mul]
    split_ifs <;> omega

/-- **Overflow**: `n` is rounded to `2 ^ k` or more exactly from half a unit below `2 ^ k` on. -/
theorem toBits_lt_iff {p k n : Nat} (hp : 0 < p) (hk : p < k) :
    toBits p n < 2 ^ k ↔ n + 2 ^ (k - p - 1) < 2 ^ k := by
  by_cases hlow : n < 2 ^ (k - 1)
  · have hk2 : 2 ^ k = 2 * 2 ^ (k - 1) := by
      rw [← pow_succ']
      congr 1
      omega
    have hle : 2 ^ (k - p - 1) ≤ 2 ^ (k - 1) := Nat.pow_le_pow_right (by omega) (by omega)
    have hto := toBits_le hlow.le hp (show p ≤ k - 1 by omega)
    have hpos : 0 < 2 ^ (k - 1) := by positivity
    omega
  by_cases hhigh : 2 ^ k ≤ n
  · have hto := le_toBits hp hhigh
    have hone : 0 < 2 ^ (k - p - 1) := by positivity
    omega
  have hsize : n.size = k := by
    have h1 := Nat.lt_size.2 (Nat.not_lt.1 hlow)
    have h2 := Nat.size_le.2 (Nat.not_le.1 hhigh)
    omega
  exact toBits_lt_iff_of_size hp hk hsize

end Rounding
