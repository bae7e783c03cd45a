import NuttyNios.Lib.Buffer
import NuttyNios.Lib.Loop
/-!
# The coefficient tables (main.c:53-125, :150-155)

`alt_32` and `alt_u32` are both `BitVec 32`: conversions between them keep the bits. A
`float` is its binary32 bit pattern, which is all `float_to_fixed23` looks at. A shift by 32
or more is undefined in C and stops the run.
-/

namespace NuttyNios
open Buffer Loop

abbrev FIR_FILTER_COEFF_NUM : Nat := 25

/-! ## Decimal literals and their binary32 values -/

/-- The literals of `easy_filter_coeff_float` (main.c:53), in units of `10⁻¹⁵`. -/
def easyFilterCoeffLit : Vector Int FIR_FILTER_COEFF_NUM := #v[
  -7515373920286, -10763509959807, 10049798773992, 1844805593684, -19807844578279, 22797855207093,
  4384990844024, -46054135205711, 56124756815064, 6802030909455, -136368003901848, 269239382022950,
  674466495032901, 269239382022950, -136368003901848, 6802030909455, 56124756815064, -46054135205711,
  4384990844024, 22797855207093, -19807844578279, 1844805593684, 10049798773992, -10763509959807,
  -7515373920286]

/-- The literals of `hard_filter_coeff_float` (main.c:81), in units of `10⁻¹⁵`. -/
def hardFilterCoeffLit : Vector Int FIR_FILTER_COEFF_NUM := #v[
  -467723186100, -173866359285, 937990028395, 3858075231638, 9487846399465, 18528590955764,
  31186479169928, 46938100674030, 64448245815707, 81704640842240, 96360238680506, 106209378953379,
  109681990496945, 106209378953379, 96360238680506, 81704640842240, 64448245815707, 46938100674030,
  31186479169928, 18528590955764, 9487846399465, 3858075231638, 937990028395, -173866359284789,
  -467723186100422]

def easyFilterCoeffFloat : Vector (BitVec 32) FIR_FILTER_COEFF_NUM := #v[
  0xBBF64387, 0xBC30596F, 0x3C24A7E9, 0x3AF1CD67, 0xBCA24410, 0x3CBAC291, 0x3B8FAFF8, 0xBD3CA343, 0x3D65E313,
  0x3BDEE392, 0xBE0BA40E, 0x3E89D9BF, 0x3F2CA9D6, 0x3E89D9BF, 0xBE0BA40E, 0x3BDEE392, 0x3D65E313, 0xBD3CA343,
  0x3B8FAFF8, 0x3CBAC291, 0xBCA24410, 0x3AF1CD67, 0x3C24A7E9, 0xBC30596F, 0xBBF64387]

def hardFilterCoeffFloat : Vector (BitVec 32) FIR_FILTER_COEFF_NUM := #v[
  0xB9F538BE, 0xB9364FE5, 0x3A75E372, 0x3B7CD7C3, 0x3C1B72E9, 0x3C97C946, 0x3CFF7ACA, 0x3D40422A, 0x3D83FD71,
  0x3DA754C3, 0x3DC55884, 0x3DD9844E, 0x3DE0A0F4, 0x3DD9844E, 0x3DC55884, 0x3DA754C3, 0x3D83FD71, 0x3D40422A,
  0x3CFF7ACA, 0x3C97C946, 0x3C1B72E9, 0x3B7CD7C3, 0x3A75E372, 0xBE320A06, 0xBEEF796A]

/-- The biased exponent field of a binary32. -/
def expField (b : BitVec 32) : Nat := ((b >>> 23) &&& 0xFF).toNat

/-- The significand of a normal binary32, implicit one included. -/
def significand (b : BitVec 32) : Nat := (b &&& 0x007FFFFF).toNat + 2 ^ 23

/-- The normal binary32 `b`, below one in magnitude, is the nearest to `lit · 10⁻¹⁵`: same sign,
and its significand off by at most half a unit in the last place. -/
def Nearest (lit : Int) (b : BitVec 32) : Prop :=
  (lit < 0 ↔ b.msb = true) ∧ 0 < expField b ∧ expField b < 127 ∧
  2 * ((lit.natAbs * 2 ^ (150 - expField b) : Nat) - (significand b * 10 ^ 15 : Nat) : Int).natAbs ≤ 10 ^ 15

instance (lit : Int) (b : BitVec 32) : Decidable (Nearest lit b) := by unfold Nearest; infer_instance

/-- Both tables are the literals of the source, rounded to binary32. -/
theorem coeffFloat_nearest : ∀ i : Fin FIR_FILTER_COEFF_NUM,
    Nearest easyFilterCoeffLit[i] easyFilterCoeffFloat[i] ∧
    Nearest hardFilterCoeffLit[i] hardFilterCoeffFloat[i] := by decide

/-! ## `float_to_fixed23` and `generate_fixed` -/

/-- `x >> k` on `alt_u32`. -/
def shr (x : BitVec 32) (k : Nat) : Except Fault (BitVec 32) := if k < 32 then .ok (x >>> k) else .error .shift

/-- `x << k` on `alt_u32`. -/
def shl (x : BitVec 32) (k : Nat) : Except Fault (BitVec 32) := if k < 32 then .ok (x <<< k) else .error .shift

/-- `float_to_fixed23` (main.c:116), on the bits of `f`. -/
def floatToFixed23 (fBits : BitVec 32) : Except Fault (BitVec 32) := do
  let sign := fBits &&& 0x80000000
  let exp : Int := ((fBits >>> 23) &&& 0xFF).toNat - 127
  let fraction := fBits &&& 0x007FFFFF
  let fraction := fraction ||| 0x00800000
  let fixed ← if exp < 0 then shr fraction (-exp).toNat else shl fraction exp.toNat
  return if sign ≠ 0 then -fixed else fixed

/-- `easy_filter_coeff_fixed` and `hard_filter_coeff_fixed`. -/
structure Coeffs where
  easy : Vector (BitVec 32) FIR_FILTER_COEFF_NUM
  hard : Vector (BitVec 32) FIR_FILTER_COEFF_NUM
deriving DecidableEq

/-- `generate_fixed` (main.c:150). -/
def generateFixed (c : Coeffs) : Except Fault Coeffs :=
  forUpToM FIR_FILTER_COEFF_NUM (fun i c => do
    let e ← floatToFixed23 easyFilterCoeffFloat[i]
    let h ← floatToFixed23 hardFilterCoeffFloat[i]
    return { easy := c.easy.set i e, hard := c.hard.set i h }) c

/-- The tables are uninitialised globals until `generate_fixed` runs: all zero. -/
def Coeffs.zero : Coeffs := ⟨Vector.replicate _ 0, Vector.replicate _ 0⟩

/-- The tables the loop of `main` runs with. -/
def coeffs : Coeffs where
  easy := #v[-63043, -90290, 84303, 15475, -166160, 191242, 36783, -386330, 470808, 57059, -1143937, 2258543,
    5657835, 2258543, -1143937, 57059, 470808, -386330, 36783, 191242, -166160, 15475, 84303, -90290, -63043]
  hard := #v[-3923, -1458, 7868, 32363, 79589, 155429, 261611, 393745, 540631, 685388, 808328, 890948, 920079,
    890948, 808328, 685388, 540631, 393745, 261611, 155429, 79589, 32363, 7868, -1458496, -3923546]

theorem floatToFixed23_coeffs : ∀ i : Fin FIR_FILTER_COEFF_NUM,
    floatToFixed23 easyFilterCoeffFloat[i] = .ok coeffs.easy[i] ∧
    floatToFixed23 hardFilterCoeffFloat[i] = .ok coeffs.hard[i] := by decide

/-- **What `generate_fixed` leaves in the tables**, whatever they held. -/
theorem generateFixed_eq (c : Coeffs) : generateFixed c = .ok coeffs := by
  let Inv (k : Nat) (t : Coeffs) : Prop :=
    ∀ j (hj : j < FIR_FILTER_COEFF_NUM), j < k → t.easy[j] = coeffs.easy[j] ∧ t.hard[j] = coeffs.hard[j]
  obtain ⟨t, ht, hinv⟩ : ∃ t, generateFixed c = .ok t ∧ Inv FIR_FILTER_COEFF_NUM t := by
    apply forUpToM_inv Inv
    · intro j hj h
      exact absurd h (Nat.not_lt_zero j)
    · intro i t ih
      obtain ⟨heasy, hhard⟩ := floatToFixed23_coeffs i
      refine ⟨{ easy := t.easy.set i coeffs.easy[i], hard := t.hard.set i coeffs.hard[i] }, ?_, ?_⟩
      · rw [heasy, hhard]
        rfl
      · intro j hj hji
        by_cases hlast : i.val = j
        · subst hlast
          simp
        · rw [Vector.getElem_set_ne _ _ hlast, Vector.getElem_set_ne _ _ hlast]
          exact ih j hj (by omega)
  have heq : t = coeffs := by
    obtain ⟨easy, hard⟩ := t
    congr 1
    · exact Vector.ext fun j hj => (hinv j hj hj).1
    · exact Vector.ext fun j hj => (hinv j hj hj).2
  rw [ht, heq]

theorem generateFixed_zero : generateFixed Coeffs.zero = .ok coeffs := generateFixed_eq _

end NuttyNios
