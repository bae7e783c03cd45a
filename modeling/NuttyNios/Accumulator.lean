import NuttyNios.Fir
/-!
# The accumulator of `fir_filter_fixed` (main.c:132-143)

What one call stores, for coefficient tables of any 32-bit words. The rounds of the loop reduce modulo
`2 ^ 32` and so keep nothing but the residue of the sum (`firFilterFixed_average`); if the sum is a
signed 32-bit number the residue is enough, whatever the products and the sums on the way were:
`firFilterFixed_exact`.
-/

namespace NuttyNios
open Wraparound

/-- The samples a call sees: the new one, then the delay line. -/
def window (memory : Vector (BitVec 32) 25) (data : BitVec 32) (i : Fin 25) : Int :=
  if i.val = 0 then data.toInt else (memory.get i).toInt

/-- The sum the accumulator stands for, before it is cut to 32 bits. -/
def exactSum (c : Coeffs) (filter : Int) (memory : Vector (BitVec 32) 25) (data : BitVec 32) : Int :=
  ∑ i : Fin 25, ((c.table filter).get i).toInt * window memory data i

theorem toInt_set_zero (memory : Vector (BitVec 32) 25) (data : BitVec 32) (h0 : 0 < 25) (i : Fin 25) :
    ((memory.set 0 data h0).get i).toInt = window memory data i := by
  rw [window, Vector.get_eq_getElem, Vector.getElem_set]
  split_ifs with h h' h'
  · rfl
  · exact absurd h.symm h'
  · exact absurd h'.symm h
  · rfl

theorem firFilterFixed_modEq (c : Coeffs) (filter : Int) (memory : Vector (BitVec 32) 25) (data : BitVec 32) :
    (firFilterFixed c filter memory data).2.toInt ≡ exactSum c filter memory data [ZMOD 2 ^ 32] := by
  simp only [exactSum, ← toInt_set_zero memory data (Nat.succ_pos 24)]
  exact firFilterFixed_average c filter memory data

/-- The residue is the sum itself when that is a signed 32-bit number. -/
theorem firFilterFixed_eq_exactSum_iff (c : Coeffs) (filter : Int) (memory : Vector (BitVec 32) 25)
    (data : BitVec 32) :
    (firFilterFixed c filter memory data).2.toInt = exactSum c filter memory data ↔
      -2 ^ 31 ≤ exactSum c filter memory data ∧ exactSum c filter memory data < 2 ^ 31 := by
  have hstored : -2 ^ 31 ≤ (firFilterFixed c filter memory data).2.toInt ∧
      (firFilterFixed c filter memory data).2.toInt < 2 ^ 31 := ⟨BitVec.le_toInt _, BitVec.toInt_lt⟩
  exact eq_iff_of_modEq (firFilterFixed_modEq c filter memory data) hstored

/-- **The accumulation is exact whenever the answer fits**, for any coefficients, delay line and sample. -/
theorem firFilterFixed_exact (c : Coeffs) (filter : Int) (memory : Vector (BitVec 32) 25) (data : BitVec 32)
    (hlo : -2 ^ 31 ≤ exactSum c filter memory data) (hhi : exactSum c filter memory data < 2 ^ 31) :
    (firFilterFixed c filter memory data).2.toInt = exactSum c filter memory data := by
  rw [firFilterFixed_eq_exactSum_iff]
  exact ⟨hlo, hhi⟩

/-- Two large coefficients of opposite sign and twenty-three ones. -/
def opposed : Vector (BitVec 32) 25 :=
  Vector.ofFn fun i => if i.val = 0 then 0x7FFFFFFF else if i.val = 1 then 0x80000001 else 1

/-- Both products leave the range, and so does the sum after the first; the answer is 46. -/
theorem firFilterFixed_exact_opposed :
    (opposed.get 0).toInt * 2 = 4294967294 ∧ (opposed.get 1).toInt * 2 = -4294967294 ∧
    (firFilterFixed ⟨opposed, opposed⟩ 0 (Vector.replicate 25 2) 2).2.toInt = 46 := by
  have hsum : exactSum ⟨opposed, opposed⟩ 0 (Vector.replicate 25 2) 2 = 46 := by decide
  refine ⟨by decide, by decide, ?_⟩
  rw [firFilterFixed_exact _ _ _ _ (by rw [hsum]; decide) (by rw [hsum]; decide), hsum]

end NuttyNios
