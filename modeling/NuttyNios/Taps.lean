import NuttyNios.Accumulator
import NuttyNios.FixedPoint
import NuttyNios.Lib.Weighted
/-!
# The filter with its own tables (main.c:53-155)

`fir_filter_fixed` on the tables `generate_fixed` builds. One call is a sum of 25 products, kept in 32
bits: which windows fit (`firFilterFixed_exact_iff`), which runs of samples do, where the delay line is what the calls
before left (`average_exact_iff`), which windows give the same sum when reversed
(`firFilterFixed_reverse_iff`), and how far the sum is from the one the `float` taps would give
(`firFilterFixed_quantised`).
-/

namespace NuttyNios
open Weighted

/-- The `float` table that `Coeffs.table` was converted from. -/
def coeffFloat (filter : Int) : Vector (BitVec 32) FIR_FILTER_COEFF_NUM :=
  if filter = 0 then easyFilterCoeffFloat else hardFilterCoeffFloat

/-! ## How large a sample may be -/

/-- Every window of signed 32-bit samples is one the filter can be given. -/
theorem exists_window (m : Fin 25 → Int) (hm : ∀ i, -2 ^ 31 ≤ m i ∧ m i < 2 ^ 31) :
    ∃ memory data, window memory data = m := by
  refine ⟨Vector.ofFn fun i => BitVec.ofInt 32 (m i), BitVec.ofInt 32 (m 0), ?_⟩
  ext i
  unfold window
  split_ifs with h
  · rw [toInt_ofInt_of_mem (hm 0), Fin.ext (show (0 : Fin 25).val = i.val from h.symm)]
  · rw [Vector.get_ofFn, toInt_ofInt_of_mem (hm i)]

/-- The taps in absolute value, added up. -/
theorem gain_eq (filter : Int) :
    ∑ i : Fin 25, |((coeffs.table filter).get i).toInt| = if filter = 0 then 15585781 else 14019302 := by
  have heasy : ∑ i : Fin 25, |(coeffs.easy.get i).toInt| = 15585781 := by decide
  have hhard : ∑ i : Fin 25, |(coeffs.hard.get i).toInt| = 14019302 := by decide
  unfold Coeffs.table
  split_ifs
  · exact heasy
  · exact hhard

/-- **When the accumulator does not wrap**: when the sum fits. Of the windows of one amplitude all do up
to 137 in easy mode and 153 in hard, where the worst case still fits, and not from there on. -/
theorem firFilterFixed_exact_iff (c₀ : Coeffs) : ∃ c, generateFixed c₀ = .ok c ∧ ∀ filter : Int,
    (∀ memory data, (firFilterFixed c filter memory data).2.toInt = exactSum c filter memory data ↔
      -2 ^ 31 ≤ exactSum c filter memory data ∧ exactSum c filter memory data < 2 ^ 31) ∧
    ∀ a : Int, 0 ≤ a → a ≤ 32767 →
      ((∀ memory data, (∀ i, |window memory data i| ≤ a) →
        (firFilterFixed c filter memory data).2.toInt = exactSum c filter memory data) ↔
      a ≤ if filter = 0 then 137 else 153) := by
  refine ⟨coeffs, generateFixed_eq c₀, fun filter => ⟨firFilterFixed_eq_exactSum_iff coeffs filter, ?_⟩⟩
  intro a h0 htop
  have hsize := forall_sum_mem_iff (fun i : Fin 25 => ((coeffs.table filter).get i).toInt) (b := 2 ^ 31) h0
  rw [gain_eq] at hsize
  simp only [firFilterFixed_eq_exactSum_iff]
  calc (∀ memory data, (∀ i, |window memory data i| ≤ a) →
        -2 ^ 31 ≤ exactSum coeffs filter memory data ∧ exactSum coeffs filter memory data < 2 ^ 31)
      ↔ (if filter = 0 then 15585781 else 14019302) * a < 2 ^ 31 := by
        rw [← hsize]
        constructor
        · intro h m hm
          obtain ⟨memory, data, rfl⟩ := exists_window m fun i => by
            have := abs_le.1 (hm i)
            omega
          exact h memory data hm
        · intro h memory data hm
          exact h _ hm
    _ ↔ a ≤ if filter = 0 then 137 else 153 := by
        split_ifs <;> omega

/-- A steady 300, in easy mode, is past the limit. -/
theorem firFilterFixed_wraps : ∃ c, generateFixed Coeffs.zero = .ok c ∧
    (∀ i, -32768 ≤ window (Vector.replicate 25 300) 300 i ∧ window (Vector.replicate 25 300) 300 i ≤ 32767) ∧
    (firFilterFixed c 0 (Vector.replicate 25 300) 300).2.toInt ≠ exactSum c 0 (Vector.replicate 25 300) 300 :=
  ⟨coeffs, generateFixed_zero, by decide, by decide⟩

/-! ## How large a sample may be in a run -/

/-- The taps as a run sees them: that of the new sample, and all those of the one before. -/
def runTaps (c : Coeffs) (filter : Int) (age : Fin 2) : Int :=
  ∑ i : Fin 25, if i.val = 0 ↔ age.val = 0 then ((c.table filter).get i).toInt else 0

theorem exactSum_firMem (c : Coeffs) (m : Nat → Int) (x : Nat → BitVec 32) (n : Nat) :
    exactSum c (m n) (firMem c m x n) (x n) = ∑ age : Fin 2, runTaps c (m n) age * past x n age := by
  rw [exactSum, Fin.sum_univ_two, runTaps, runTaps, Finset.sum_mul, Finset.sum_mul, ← Finset.sum_add_distrib]
  refine Finset.sum_congr rfl fun i _ => ?_
  by_cases h0 : i.val = 0
  · have hnew : window (firMem c m x n) (x n) i = past x n 0 := by simp [window, past, h0]
    simp [hnew, h0]
  · have hold : window (firMem c m x n) (x n) i = past x n 1 := by
      rw [← firMem_entry c m x n i]
      exact if_neg h0
    simp [hold, h0]

theorem run_gain (filter : Int) :
    ∑ age : Fin 2, |runTaps coeffs filter age| = if filter = 0 then 8312827 else 3252302 := by
  have heasy : ∑ age : Fin 2,
      |∑ i : Fin 25, if i.val = 0 ↔ age.val = 0 then (coeffs.easy.get i).toInt else 0| = 8312827 := by
    decide
  have hhard : ∑ age : Fin 2,
      |∑ i : Fin 25, if i.val = 0 ↔ age.val = 0 then (coeffs.hard.get i).toInt else 0| = 3252302 := by
    decide
  unfold runTaps Coeffs.table
  split_ifs
  · exact heasy
  · exact hhard

theorem abs_past_le {x : Nat → BitVec 32} {n i : Nat} {a : Int} (h0 : 0 ≤ a) (hx : ∀ k ≤ n, |(x k).toInt| ≤ a) :
    |past x n i| ≤ a := by
  unfold past
  split
  · exact hx _ (Nat.sub_le n i)
  · rwa [abs_zero]

/-- Any two samples are the last ones of a run. -/
theorem exists_run (w : Fin 2 → Int) (hw : ∀ i, -2 ^ 31 ≤ w i ∧ w i < 2 ^ 31) :
    ∃ x : Nat → BitVec 32, (x 0).toInt = w 1 ∧ (x 1).toInt = w 0 :=
  ⟨fun k => BitVec.ofInt 32 (if k = 0 then w 1 else w 0), toInt_ofInt_of_mem (hw 1), toInt_ofInt_of_mem (hw 0)⟩

/-- **When a run of samples does not wrap**: samples of one amplitude are filtered without loss, whatever came before
and however the mode is switched, up to 258 in easy mode and 660 in hard, and not from there on. -/
theorem average_exact_iff (c₀ : Coeffs) : ∃ c, generateFixed c₀ = .ok c ∧ ∀ filter a : Int, 0 ≤ a → a ≤ 2 ^ 15 →
    ((∀ m x n, m n = filter → (∀ k ≤ n, |(x k).toInt| ≤ a) →
      (average c m x n).toInt = exactSum c filter (firMem c m x n) (x n)) ↔ a ≤ if filter = 0 then 258 else 660) := by
  refine ⟨coeffs, generateFixed_eq c₀, fun filter a h0 htop => ?_⟩
  have hsize := forall_sum_mem_iff (runTaps coeffs filter) (b := 2 ^ 31) h0
  rw [run_gain] at hsize
  calc (∀ m x n, m n = filter → (∀ k ≤ n, |(x k).toInt| ≤ a) →
        (average coeffs m x n).toInt = exactSum coeffs filter (firMem coeffs m x n) (x n))
      ↔ (if filter = 0 then 8312827 else 3252302) * a < 2 ^ 31 := by
        rw [← hsize]
        constructor
        · intro h w hw
          obtain ⟨x, hx₀, hx₁⟩ := exists_run w fun i => by
            have := abs_le.1 (hw i)
            omega
          have hrun := h (fun _ => filter) x 1 rfl fun k hk => by
            rcases Nat.le_one_iff_eq_zero_or_eq_one.1 hk with rfl | rfl
            · exact hx₀ ▸ hw 1
            · exact hx₁ ▸ hw 0
          have hmem := (firFilterFixed_eq_exactSum_iff coeffs filter _ _).1 hrun
          rw [exactSum_firMem coeffs (fun _ => filter)] at hmem
          have hsum : ∑ i : Fin 2, runTaps coeffs filter i * past x 1 i = ∑ i, runTaps coeffs filter i * w i := by
            rw [Fin.sum_univ_two, Fin.sum_univ_two, ← hx₀, ← hx₁]
            rfl
          rwa [hsum] at hmem
        · rintro h m x n rfl hx
          refine (firFilterFixed_eq_exactSum_iff coeffs (m n) _ _).2 ?_
          rw [exactSum_firMem]
          exact h _ fun i => abs_past_le h0 hx
    _ ↔ a ≤ if filter = 0 then 258 else 660 := by
        split_ifs <;> omega

/-! ## Reversing the window -/

theorem firFilterFixed_window (c : Coeffs) (filter : Int) (w : Vector (BitVec 32) 25) (data : BitVec 32)
    (h : w.get 0 = data) : (firFilterFixed c filter w data).2 = ∑ i : Fin 25, (c.table filter).get i * w.get i := by
  have hset : w.set 0 data = w := by
    rw [← h]
    exact Vector.set_getElem_self _
  rw [firFilterFixed_acc, hset]
  rfl

theorem get_reverse (w : Vector (BitVec 32) 25) (i : Fin 25) : w.reverse.get i = w.get i.rev := by
  have hi : 25 - 1 - i.val = i.rev.val := by
    rw [Fin.val_rev]
    omega
  rw [Vector.get_eq_getElem, Vector.get_eq_getElem, Vector.getElem_reverse]
  simp only [hi]

/-- The easy taps are a palindrome. -/
theorem easy_rev : ∀ i : Fin 25, coeffs.easy.get i - coeffs.easy.get i.rev = 0 := by decide

/-- The hard taps are one up to the last two, whose literals lack their exponent. -/
theorem hard_rev : ∀ i : Fin 25, i ∉ ({0, 1, 23, 24} : Finset (Fin 25)) →
    coeffs.hard.get i - coeffs.hard.get i.rev = 0 := by decide

/-- **Linear phase**: always in easy mode, and in hard mode when the four outer samples make up for
the two taps. -/
theorem firFilterFixed_reverse_iff (c₀ : Coeffs) : ∃ c, generateFixed c₀ = .ok c ∧
    ∀ (filter : Int) (w : Vector (BitVec 32) 25),
      (firFilterFixed c filter w (w.get 0)).2 = (firFilterFixed c filter w.reverse (w.get 24)).2 ↔
        filter = 0 ∨ 3919623 * (w.get 0 - w.get 24) + 1457038 * (w.get 1 - w.get 23) = 0 := by
  refine ⟨coeffs, generateFixed_eq c₀, fun filter w => ?_⟩
  have hfwd := firFilterFixed_window coeffs filter w (w.get 0) rfl
  have hback := firFilterFixed_window coeffs filter w.reverse (w.get 24) (get_reverse w 0)
  simp only [get_reverse] at hback
  rw [hfwd, hback, sum_mul_eq_rev_iff fun i => (coeffs.table filter).get i]
  by_cases h : filter = 0
  · have heasy : coeffs.table filter = coeffs.easy := if_pos h
    refine iff_of_true ?_ (.inl h)
    simp only [heasy, easy_rev, zero_mul, Finset.sum_const_zero]
  · have hhard : coeffs.table filter = coeffs.hard := if_neg h
    have hsum : ∑ i : Fin 25, (coeffs.hard.get i - coeffs.hard.get i.rev) * w.get i =
        3919623 * (w.get 0 - w.get 24) + 1457038 * (w.get 1 - w.get 23) := by
      rw [← Finset.sum_subset (Finset.subset_univ {0, 1, 23, 24}) fun i _ hi => by rw [hard_rev i hi, zero_mul]]
      have h0 : coeffs.hard.get 0 - coeffs.hard.get (Fin.rev 0) = 3919623 := by decide
      have h1 : coeffs.hard.get 1 - coeffs.hard.get (Fin.rev 1) = 1457038 := by decide
      have h23 : coeffs.hard.get 23 - coeffs.hard.get (Fin.rev 23) = -1457038 := by decide
      have h24 : coeffs.hard.get 24 - coeffs.hard.get (Fin.rev 24) = -3919623 := by decide
      rw [Finset.sum_insert (by decide), Finset.sum_insert (by decide), Finset.sum_insert (by decide),
        Finset.sum_singleton, h0, h1, h23, h24]
      ring
    rw [hhard, hsum, or_iff_right h]

/-- The window of an impulse. -/
def impulse : Vector (BitVec 32) 25 := Vector.ofFn fun i => if i.val = 0 then 1 else 0

theorem firFilterFixed_reverse_impulse : ∃ c, generateFixed Coeffs.zero = .ok c ∧
    (firFilterFixed c 1 impulse (impulse.get 0)).2 ≠ (firFilterFixed c 1 impulse.reverse (impulse.get 24)).2 := by
  refine ⟨coeffs, generateFixed_zero, ?_⟩
  have hfwd : (firFilterFixed coeffs 1 impulse (impulse.get 0)).2 = -3923 := by decide +kernel
  have hback : (firFilterFixed coeffs 1 impulse.reverse (impulse.get 24)).2 = -3923546 := by decide +kernel
  rw [hfwd, hback]
  decide

/-! ## Against the `float` taps -/

theorem coeffFloat_exponent : ∀ i : Fin FIR_FILTER_COEFF_NUM,
    (96 ≤ Binary32.exponent (easyFilterCoeffFloat.get i) ∧ Binary32.exponent (easyFilterCoeffFloat.get i) < 127) ∧
    96 ≤ Binary32.exponent (hardFilterCoeffFloat.get i) ∧ Binary32.exponent (hardFilterCoeffFloat.get i) < 127 := by
  decide

/-- A float below one in magnitude, but not too small, is quantised to within a unit. -/
theorem abs_floatToFixed23_sub_le {f r : BitVec 32} (hlo : 96 ≤ Binary32.exponent f) (hhi : Binary32.exponent f < 127)
    (h : floatToFixed23 f = .ok r) : |(r.toInt : ℚ) - 2 ^ 23 * Binary32.value f| ≤ 1 := by
  have hle : Binary32.exponent f ≤ 158 := by omega
  have hone : |Binary32.value f| < 1 := by
    rw [Binary32.exponent_lt_iff f (by decide)] at hhi
    simpa using hhi
  have hsmall := abs_lt.1 hone
  rw [floatToFixed23_eq hlo hle] at h
  cases h
  rw [toInt_ofInt_of_mem, mul_comm]
  · exact (abs_truncate_sub_lt _).le
  · apply truncate_mem <;> push_cast <;> linarith

theorem abs_coeffs_sub_le (filter : Int) (i : Fin 25) :
    |(((coeffs.table filter).get i).toInt : ℚ) - 2 ^ 23 * Binary32.value ((coeffFloat filter).get i)| ≤ 1 := by
  obtain ⟨⟨he, he'⟩, hh, hh'⟩ := coeffFloat_exponent i
  obtain ⟨heasy, hhard⟩ := floatToFixed23_coeffs i
  by_cases h : filter = 0
  · simp only [Coeffs.table, coeffFloat, if_pos h]
    exact abs_floatToFixed23_sub_le he he' heasy
  · simp only [Coeffs.table, coeffFloat, if_neg h]
    exact abs_floatToFixed23_sub_le hh hh' hhard

/-- **Quantising the taps** costs at most one unit of output per unit of input. -/
theorem firFilterFixed_quantised (c₀ : Coeffs) : ∃ c, generateFixed c₀ = .ok c ∧ ∀ (filter : Int) memory data,
    -2 ^ 31 ≤ exactSum c filter memory data → exactSum c filter memory data < 2 ^ 31 →
    |((firFilterFixed c filter memory data).2.toInt : ℚ) -
        2 ^ 23 * ∑ i : Fin 25, Binary32.value ((coeffFloat filter).get i) * window memory data i| ≤
      ∑ i, |(window memory data i : ℚ)| := by
  refine ⟨coeffs, generateFixed_eq c₀, fun filter memory data hlo hhi => ?_⟩
  have hexact := (firFilterFixed_eq_exactSum_iff coeffs filter memory data).2 ⟨hlo, hhi⟩
  have hdiff := abs_sum_sub_le (fun i => (window memory data i : ℚ)) (abs_coeffs_sub_le filter)
  rw [hexact, exactSum, Finset.mul_sum]
  push_cast
  simpa only [one_mul, mul_assoc] using hdiff

end NuttyNios
