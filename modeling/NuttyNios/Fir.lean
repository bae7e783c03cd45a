import NuttyNios.Fixed
import NuttyNios.Lib.Wraparound
/-!
# `fir_filter_fixed` (main.c:132-148)

The accumulator mixes `alt_32` and `alt_u32`; both are `BitVec 32`, so `+` and `*` are the
machine's, and come to the same as C's conversions there and back (`accumulate_mixed`). The
value stored through `average` is read as a signed number (`toInt`), and compared with the
exact integer sum modulo `2^32`.

Main results: `firFilterFixed_average` (the dot product), `firFilterFixed_memory` (after a
call every entry of the delay line is the sample just given: the ascending shift loop copies
`memory[0]` all the way up), and from the two `average_eq`, which says what the filter
computes over a run, and `average_convolution_iff`, which says when that is the convolution.
-/

namespace NuttyNios
open Loop Wraparound

/-- The table `fir_filter_fixed` uses: `filter == 0` is easy, anything else hard. -/
def Coeffs.table (c : Coeffs) (filter : Int) : Vector (BitVec 32) 25 := if filter = 0 then c.easy else c.hard

/-- `acc += easy_filter_coeff_fixed[i] * memory[i]`, or the same with the hard table. -/
def accumulate (c : Coeffs) (filter : Int) (memory : Vector (BitVec 32) 25) (i : Fin 25) (acc : BitVec 32) :
    BitVec 32 :=
  if filter = 0 then acc + c.easy[i] * memory[i] else acc + c.hard[i] * memory[i]

/-- `memory[i] = memory[i-1]`, with the index shifted down by one. -/
def shiftUp (i : Fin 24) (memory : Vector (BitVec 32) 25) : Vector (BitVec 32) 25 :=
  memory.set (i + 1) memory[i.castSucc]

/-- `fir_filter_fixed(memory, data, average)`: the new `memory` and `*average`. -/
def firFilterFixed (c : Coeffs) (filter : Int) (memory : Vector (BitVec 32) 25) (data : BitVec 32) :
    Vector (BitVec 32) 25 × BitVec 32 :=
  let memory := memory.set 0 data
  let acc := forUpTo 25 (accumulate c filter memory) 0
  let memory := forUpTo 24 shiftUp memory
  (memory, acc)

/-! ## One call -/

theorem accumulate_eq (c : Coeffs) (filter : Int) (memory : Vector (BitVec 32) 25) (i : Fin 25) (acc : BitVec 32) :
    accumulate c filter memory i acc = acc + (c.table filter)[i] * memory[i] := by
  by_cases h : filter = 0 <;> simp [accumulate, Coeffs.table, h]

theorem firFilterFixed_acc (c : Coeffs) (filter : Int) (memory : Vector (BitVec 32) 25) (data : BitVec 32) :
    (firFilterFixed c filter memory data).2 =
      ∑ i : Fin 25, (c.table filter)[i] * (memory.set 0 data)[i] := by
  have hbody : accumulate c filter (memory.set 0 data) =
      fun i acc => acc + (c.table filter)[i] * (memory.set 0 data)[i] := by
    funext i acc; exact accumulate_eq ..
  unfold firFilterFixed
  simp only [hbody, forUpTo_add, zero_add]

/-- One round by C's rules: the coefficient is unsigned, the sample and the accumulator are signed. -/
theorem accumulate_mixed (c : Coeffs) (filter : Int) (memory : Vector (BitVec 32) 25) (i : Fin 25) (acc : BitVec 32) :
    (accumulate c filter memory i acc).toInt =
      mulAdd 32 (c.table filter)[i].toNat memory[i].toInt acc.toInt := by
  rw [accumulate_eq, toInt_add_mul]

theorem firFilterFixed_mixed (c : Coeffs) (filter : Int) (memory : Vector (BitVec 32) 25) (data : BitVec 32) :
    (firFilterFixed c filter memory data).2.toInt =
      forUpTo 25 (fun i => mulAdd 32 (c.table filter)[i].toNat (memory.set 0 data)[i].toInt) 0 :=
  forUpTo_hom BitVec.toInt (accumulate_mixed c filter _) 0

/-- **The dot product**: what is stored through `average`, modulo `2^32`. -/
theorem firFilterFixed_average (c : Coeffs) (filter : Int) (memory : Vector (BitVec 32) 25) (data : BitVec 32) :
    (firFilterFixed c filter memory data).2.toInt ≡
      ∑ i : Fin 25, (c.table filter)[i].toInt * (memory.set 0 data)[i].toInt [ZMOD 2 ^ 32] := by
  have hloop := forUpTo_mulAdd_modEq (fun i : Fin 25 => toNat_modEq_toInt (c.table filter)[i])
    (fun i => (memory.set 0 data)[i].toInt) 0
  rw [firFilterFixed_mixed]
  rwa [zero_add] at hloop

/-- Copying upwards in place: after `k` rounds the first `k + 1` entries are the first one. -/
theorem shiftUp_loop (memory : Vector (BitVec 32) 25) :
    forUpTo 24 shiftUp memory = Vector.replicate 25 memory[0] := by
  let Inv (k : Nat) (mem : Vector (BitVec 32) 25) : Prop := ∀ j (hj : j < 25), j ≤ k → mem[j] = memory[0]
  have h0 : Inv 0 memory := by
    intro j hj h0
    obtain rfl : j = 0 := by omega
    rfl
  have hstep : ∀ (i : Fin 24) mem, Inv i mem → Inv (i + 1) (shiftUp i mem) := by
    intro i mem ih j hj hji
    unfold shiftUp
    by_cases hlast : j = i.val + 1
    · subst hlast
      rw [Vector.getElem_set_self]
      exact ih i.val (by omega) (Nat.le_refl _)
    · rw [Vector.getElem_set_ne _ _ (Ne.symm hlast)]
      exact ih j hj (by omega)
  have inv := forUpTo_inv Inv h0 hstep
  apply Vector.ext
  intro j hj
  rw [Vector.getElem_replicate]
  exact inv j hj (by omega)

/-- **What a call leaves in the delay line**: twenty-five copies of the sample. -/
theorem firFilterFixed_memory (c : Coeffs) (filter : Int) (memory : Vector (BitVec 32) 25) (data : BitVec 32) :
    (firFilterFixed c filter memory data).1 = Vector.replicate 25 data := by
  show forUpTo 24 shiftUp (memory.set 0 data) = _
  rw [shiftUp_loop, Vector.getElem_set_self]

/-! ## A run of calls

`x k` is the sample of call `k` and `m k` the value of `filter` there. -/

/-- The delay line before call `n`; `{0}` at boot (main.c:112). -/
def firMem (c : Coeffs) (m : Nat → Int) (x : Nat → BitVec 32) : Nat → Vector (BitVec 32) 25
  | 0 => Vector.replicate 25 0
  | n + 1 => (firFilterFixed c (m n) (firMem c m x n) (x n)).1

/-- What call `n` stores through `average`. -/
def average (c : Coeffs) (m : Nat → Int) (x : Nat → BitVec 32) (n : Nat) : BitVec 32 :=
  (firFilterFixed c (m n) (firMem c m x n) (x n)).2

/-- The sample `i` calls before call `n`, zero before the first. -/
def past (x : Nat → BitVec 32) (n i : Nat) : Int := if i ≤ n then (x (n - i)).toInt else 0

/-- The 25-tap FIR convolution: `∑ cᵢ · x(n-i)`, `c` the table of call `n`'s mode. -/
def convolution (c : Coeffs) (m : Nat → Int) (x : Nat → BitVec 32) (n : Nat) : Int :=
  ∑ i : Fin 25, (c.table (m n))[i].toInt * past x n i

/-- Before call `n` the whole delay line is the sample of call `n - 1`. -/
theorem firMem_entry (c : Coeffs) (m : Nat → Int) (x : Nat → BitVec 32) (n : Nat) (i : Fin 25) :
    (firMem c m x n)[i].toInt = past x n 1 := by
  cases n with
  | zero => simp [firMem, past]
  | succ n => simp [firMem, firFilterFixed_memory, past]

/-- **What the filter computes over a run**: the first tap sees the new sample, the other
twenty-four all see the one before it. -/
theorem average_eq (c : Coeffs) (m : Nat → Int) (x : Nat → BitVec 32) (n : Nat) :
    (average c m x n).toInt ≡ ((c.table (m n)).get 0).toInt * past x n 0 +
      ∑ i : Fin 24, ((c.table (m n)).get i.succ).toInt * past x n 1 [ZMOD 2 ^ 32] := by
  have h := firFilterFixed_average c (m n) (firMem c m x n) (x n)
  have hnew : ((firMem c m x n).set 0 (x n))[(0 : Fin 25)].toInt = past x n 0 := by simp [past]
  have hold : ∀ i : Fin 24, ((firMem c m x n).set 0 (x n))[i.succ].toInt = past x n 1 := by
    intro i
    rw [← firMem_entry c m x n i.succ]
    congr 1
    exact Vector.getElem_set_ne _ _ (by simp)
  simp only [Fin.sum_univ_succ (n := 24), hnew, hold] at h
  exact h

/-- What is stored is the convolution plus the taps from 2 on, each applied to the difference
between the previous sample and the one it should have seen. -/
theorem average_eq_convolution_add (c : Coeffs) (m : Nat → Int) (x : Nat → BitVec 32) (n : Nat) :
    (average c m x n).toInt ≡ convolution c m x n +
      ∑ j : Fin 23, (c.table (m n))[j.succ.succ].toInt * (past x n 1 - past x n (j + 2)) [ZMOD 2 ^ 32] := by
  have hsplit : convolution c m x n + ∑ j : Fin 23,
      (c.table (m n))[j.succ.succ].toInt * (past x n 1 - past x n (j + 2)) =
      ((c.table (m n)).get 0).toInt * past x n 0 +
        ∑ i : Fin 24, ((c.table (m n)).get i.succ).toInt * past x n 1 := by
    simp only [convolution, Vector.get_eq_getElem, Fin.sum_univ_succ (n := 24), Fin.sum_univ_succ (n := 23), mul_sub,
      Finset.sum_sub_distrib]
    simp only [Fin.getElem_fin, Fin.val_zero, Fin.val_succ, zero_add]
    ring
  rw [hsplit]
  exact average_eq c m x n

/-- A signal that has not moved for 24 calls is filtered right. -/
theorem average_steady (c : Coeffs) (m : Nat → Int) (x : Nat → BitVec 32) (n : Nat)
    (h : ∀ j < 23, past x n (j + 2) = past x n 1) :
    (average c m x n).toInt ≡ convolution c m x n [ZMOD 2 ^ 32] := by
  have hsum : ∑ j : Fin 23, (c.table (m n))[j.succ.succ].toInt * (past x n 1 - past x n (j + 2)) = 0 :=
    Finset.sum_eq_zero fun j _ => by rw [h j j.isLt, sub_self, mul_zero]
  have := average_eq_convolution_add c m x n
  rwa [hsum, add_zero] at this

/-- **The filter is the convolution exactly when the older samples cancel.** Call `n` stores the
convolution, modulo `2^32`, if and only if the differences between the previous sample and each
older one, weighted by taps 2 to 24, add up to a multiple of `2^32`. -/
theorem average_convolution_iff (c : Coeffs) (m : Nat → Int) (x : Nat → BitVec 32) (n : Nat) :
    (average c m x n).toInt ≡ convolution c m x n [ZMOD 2 ^ 32] ↔
      ∑ j : Fin 23, (c.table (m n))[j.succ.succ].toInt * (past x n 1 - past x n (j + 2)) ≡ 0 [ZMOD 2 ^ 32] := by
  have havg := average_eq_convolution_add c m x n
  constructor
  · intro h
    have := havg.symm.trans h
    rw [← add_zero (convolution c m x n), add_assoc, zero_add] at this
    exact Int.ModEq.add_left_cancel' _ this
  · intro h
    have := havg.trans (h.add_left (convolution c m x n))
    rwa [add_zero] at this

/-- A unit impulse in easy mode: call 1 stores the sum of taps 1 to 24, not tap 1. -/
theorem average_impulse : ∃ c, generateFixed Coeffs.zero = .ok c ∧
    ¬ (average c (fun _ => 0) (fun k => if k = 0 then 1 else 0) 1).toInt ≡
      convolution c (fun _ => 0) (fun k => if k = 0 then 1 else 0) 1 [ZMOD 2 ^ 32] :=
  ⟨coeffs, generateFixed_zero, by decide⟩

end NuttyNios
