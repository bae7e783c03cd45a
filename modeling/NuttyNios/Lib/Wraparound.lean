import NuttyNios.Lib.Loop
/-!
# Mixed signed and unsigned arithmetic

C's integers of `w` bits. An operation between a signed and an unsigned operand is unsigned: the signed
one is converted first, and a result stored in a signed variable is converted back. Both conversions
keep the residue modulo `2 ^ w` (the second by definition of the implementation), so a sum of products
ends in the residue of the exact sum, whatever its steps went through: `forUpTo_mulAdd_modEq`.
-/

namespace Wraparound
open Loop

variable {w : ℕ}

/-- Conversion of a signed number to unsigned. -/
def unsigned (w : ℕ) (n : ℤ) : ℕ := (n % 2 ^ w).toNat

/-- Conversion of an unsigned number to signed. -/
def signed (w : ℕ) (n : ℕ) : ℤ := (n : ℤ).bmod (2 ^ w)

/-- `acc += c * m`, with `c` unsigned and the other two signed. -/
def mulAdd (w : ℕ) (c : ℕ) (m acc : ℤ) : ℤ := signed w ((unsigned w acc + c * unsigned w m % 2 ^ w) % 2 ^ w)

/-! ## Residues -/

theorem unsigned_modEq (w : ℕ) (n : ℤ) : (unsigned w n : ℤ) ≡ n [ZMOD 2 ^ w] := by
  rw [unsigned, Int.toNat_of_nonneg (Int.emod_nonneg _ (by positivity))]
  exact Int.mod_modEq _ _

theorem signed_modEq (w n : ℕ) : signed w n ≡ n [ZMOD 2 ^ w] := by
  have h : (n : ℤ).bmod (2 ^ w) ≡ n [ZMOD (2 ^ w : ℕ)] := Int.bmod_emod
  exact_mod_cast h

/-- One round adds the product, up to the residue. -/
theorem mulAdd_modEq {c : ℕ} {c' : ℤ} (hc : c ≡ c' [ZMOD 2 ^ w]) (m acc : ℤ) :
    mulAdd w c m acc ≡ acc + c' * m [ZMOD 2 ^ w] := by
  have hprod : ((c * unsigned w m % 2 ^ w : ℕ) : ℤ) ≡ c' * m [ZMOD 2 ^ w] := by
    push_cast
    exact (Int.mod_modEq _ _).trans (hc.mul (unsigned_modEq w m))
  have hsum : (((unsigned w acc + c * unsigned w m % 2 ^ w) % 2 ^ w : ℕ) : ℤ) ≡ acc + c' * m [ZMOD 2 ^ w] := by
    rw [Int.natCast_mod, Nat.cast_add, Nat.cast_pow, Nat.cast_ofNat]
    exact (Int.mod_modEq _ _).trans ((unsigned_modEq w acc).add hprod)
  exact (signed_modEq w _).trans hsum

/-- **The loop invariant**: the accumulator is the sum so far, up to the residue. -/
theorem forUpTo_mulAdd_modEq {n : ℕ} {c : Fin n → ℕ} {c' : Fin n → ℤ} (hc : ∀ i, c i ≡ c' i [ZMOD 2 ^ w])
    (m : Fin n → ℤ) (a : ℤ) :
    forUpTo n (fun i => mulAdd w (c i) (m i)) a ≡ a + ∑ i, c' i * m i [ZMOD 2 ^ w] := by
  induction n with
  | zero => simp [Int.ModEq.refl]
  | succ n ih =>
    have hsofar := ih (fun i => hc i.castSucc) fun i => m i.castSucc
    rw [forUpTo_succ, Fin.sum_univ_castSucc, ← add_assoc]
    exact (mulAdd_modEq (hc (Fin.last n)) (m (Fin.last n)) _).trans (hsofar.add_right _)

/-- Of the numbers in the signed range no two have the same residue. -/
theorem eq_iff_of_modEq {a b : ℤ} (h : a ≡ b [ZMOD 2 ^ (w + 1)]) (ha : -2 ^ w ≤ a ∧ a < 2 ^ w) :
    a = b ↔ -2 ^ w ≤ b ∧ b < 2 ^ w := by
  constructor
  · rintro rfl
    exact ha
  · intro hb
    have hdiff : |b - a| < 2 ^ (w + 1) := by
      rw [abs_lt, pow_succ]
      constructor <;> linarith
    have hzero := Int.eq_zero_of_abs_lt_dvd h.dvd hdiff
    linarith

/-! ## Words -/

theorem signed_toNat (x : BitVec w) : signed w x.toNat = x.toInt := (BitVec.toInt_eq_toNat_bmod x).symm

theorem toNat_modEq_toInt (x : BitVec w) : x.toNat ≡ x.toInt [ZMOD 2 ^ w] := by
  rw [← signed_toNat]
  exact (signed_modEq w _).symm

theorem unsigned_toInt (x : BitVec w) : unsigned w x.toInt = x.toNat := by
  have hlt : (x.toNat : ℤ) < 2 ^ w := by exact_mod_cast x.isLt
  rw [unsigned, ← (toNat_modEq_toInt x).eq, Int.emod_eq_of_lt (by positivity) hlt, Int.toNat_natCast]

/-- **On words mixed arithmetic is plain arithmetic**: they carry no sign. -/
theorem toInt_add_mul (acc c m : BitVec w) : (acc + c * m).toInt = mulAdd w c.toNat m.toInt acc.toInt := by
  rw [mulAdd, unsigned_toInt, unsigned_toInt, ← BitVec.toNat_mul, ← BitVec.toNat_add, signed_toNat]

end Wraparound
