import Mathlib
/-!
# Weighted sums

`∑ i, c i * m i`, with `c` the weights and `m` the samples: how reversing the samples, bounding them and
replacing the weights act on it.
-/

namespace Weighted

section Ring
variable {R : Type} [CommRing R] {n : Nat}

/-- Reversing the samples reverses the weights. -/
theorem sum_mul_rev (c m : Fin n → R) : ∑ i, c i * m i.rev = ∑ i, c i.rev * m i := by
  rw [← Equiv.sum_comp Fin.revPerm]
  simp

/-- **Linear phase**: a reversal goes unnoticed as far as mirrored weights agree. -/
theorem sum_mul_eq_rev_iff (c m : Fin n → R) :
    ∑ i, c i * m i = ∑ i, c i * m i.rev ↔ ∑ i, (c i - c i.rev) * m i = 0 := by
  rw [sum_mul_rev, ← sub_eq_zero, ← Finset.sum_sub_distrib]
  simp only [sub_mul]

end Ring

section Ordered
variable {R ι : Type} [CommRing R] [LinearOrder R] [IsStrictOrderedRing R] [Fintype ι]

/-- What the weights make of samples of a given amplitude. -/
theorem abs_sum_mul_le {c m : ι → R} {a : R} (hm : ∀ i, |m i| ≤ a) : |∑ i, c i * m i| ≤ (∑ i, |c i|) * a := by
  calc |∑ i, c i * m i| ≤ ∑ i, |c i * m i| := Finset.abs_sum_le_sum_abs _ _
    _ ≤ ∑ i, |c i| * a := Finset.sum_le_sum fun i _ => by
        rw [abs_mul]
        exact mul_le_mul_of_nonneg_left (hm i) (abs_nonneg _)
    _ = (∑ i, |c i|) * a := (Finset.sum_mul ..).symm

/-- The worst case: every sample has the sign of its weight. -/
theorem sum_mul_sign (c : ι → R) (a : R) : ∑ i, c i * (a * SignType.sign (c i)) = (∑ i, |c i|) * a := by
  rw [Finset.sum_mul]
  refine Finset.sum_congr rfl fun i _ => ?_
  rw [mul_left_comm, mul_comm _ a, self_mul_sign]

/-- **Sizing an accumulator**: samples of amplitude `a` all keep the sum in `[-b, b)` exactly when the
worst case does. -/
theorem forall_sum_mem_iff (c : ι → R) {a b : R} (ha : 0 ≤ a) :
    (∀ m : ι → R, (∀ i, |m i| ≤ a) → -b ≤ ∑ i, c i * m i ∧ ∑ i, c i * m i < b) ↔ (∑ i, |c i|) * a < b := by
  constructor
  · intro h
    rw [← sum_mul_sign]
    refine (h _ fun i => ?_).2
    cases SignType.sign (c i) <;> simp [ha, abs_of_nonneg]
  · intro h m hm
    have habs := abs_le.1 (abs_sum_mul_le (c := c) hm)
    constructor <;> linarith

/-- **Replacing the weights** by others that differ by at most `δ`. -/
theorem abs_sum_sub_le {c d : ι → R} (m : ι → R) {δ : R} (h : ∀ i, |c i - d i| ≤ δ) :
    |∑ i, c i * m i - ∑ i, d i * m i| ≤ δ * ∑ i, |m i| := by
  have hsub : ∑ i, c i * m i - ∑ i, d i * m i = ∑ i, (c i - d i) * m i := by
    rw [← Finset.sum_sub_distrib]
    simp only [sub_mul]
  calc |∑ i, c i * m i - ∑ i, d i * m i| ≤ ∑ i, |(c i - d i) * m i| := by
        rw [hsub]
        exact Finset.abs_sum_le_sum_abs _ _
    _ ≤ ∑ i, δ * |m i| := Finset.sum_le_sum fun i _ => by
        rw [abs_mul]
        exact mul_le_mul_of_nonneg_right (h i) (abs_nonneg _)
    _ = δ * ∑ i, |m i| := (Finset.mul_sum ..).symm

end Ordered

end Weighted
