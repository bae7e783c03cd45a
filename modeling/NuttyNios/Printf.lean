import NuttyNios.Lib.Buffer
/-!
# `alt_printf` (firmware02_bsp/HAL/src/alt_printf.c:50-132)

The output is the characters given to `alt_putchar`. Nios II is a 32-bit target: `unsigned long`,
`int` and the shift `0xF << digit_shift` are all 32 bits wide.

`%x` looks for the first non-zero nibble from the top (`findDigit`) and prints from there down
(`printDigits`); `printHex_eq` says that these are the base-16 digits of the argument, with no
leading zeros.
-/

namespace NuttyNios
open Buffer

/-- A variadic argument: a machine word, or a string. -/
inductive Arg
  | word (v : BitVec 32)
  | str (s : List Char)

/-- `v & (0xF << digit_shift)`, with `digit_shift = 4 * k`. -/
def nibble (v : BitVec 32) (k : Nat) : BitVec 32 := v &&& (0xF#32 <<< (4 * k))

/-- The search for the first non-zero digit (:99-101), from `digit_shift = 4 * k` down; `none` when
it runs past `digit_shift = 0`. -/
def findDigit (v : BitVec 32) : Nat → Option Nat
  | 0 => if nibble v 0 ≠ 0 then some 0 else none
  | k + 1 => if nibble v (k + 1) ≠ 0 then some (k + 1) else findDigit v k

/-- `c = '0' + digit` or `c = 'a' + digit - 10` (:107-110). -/
def digitChar (digit : Nat) : Char :=
  if digit ≤ 9 then Char.ofNat ('0'.toNat + digit) else Char.ofNat ('a'.toNat + digit - 10)

/-- The loop that prints the digits (:104-112), from `digit_shift = 4 * k` down. -/
def printDigits (v : BitVec 32) : Nat → List Char
  | 0 => [digitChar (nibble v 0).toNat]
  | k + 1 => digitChar (nibble v (k + 1) >>> (4 * (k + 1))).toNat :: printDigits v k

/-- `%x` (:84-113). -/
def printHex (v : BitVec 32) : Except Fault (List Char) :=
  if v = 0 then .ok ['0']
  else match findDigit v 7 with
    | some k => .ok (printDigits v k)
    | none => .error .shift

/-- `alt_printf`; `w` is what is left of the format string and `args` the arguments not read yet. -/
def altPrintf : (w : List Char) → (args : List Arg) → Except Fault (List Char)
  | [], _ => .ok []
  | '%' :: [], _ => .ok []
  | '%' :: c :: w, args =>
    if c = '%' then do return '%' :: (← altPrintf w args)
    else if c = 'c' then match args with
      | .word v :: args => do return Char.ofNat (v.toNat % 256) :: (← altPrintf w args)
      | _ => .error .vararg
    else if c = 'x' then match args with
      | .word v :: args => do
        let digits ← printHex v
        return digits ++ (← altPrintf w args)
      | _ => .error .vararg
    else if c = 's' then match args with
      | .str s :: args => do return s ++ (← altPrintf w args)
      | _ => .error .vararg
    else altPrintf w args              -- an unknown conversion prints nothing
  | c :: w, args => do return c :: (← altPrintf w args)

/-! ## What `%x` prints -/

theorem nibble_toNat (v : BitVec 32) {k : Nat} (hk : k ≤ 7) :
    (nibble v k >>> (4 * k)).toNat = v.toNat / 16 ^ k % 16 := by
  have hmask : (0xF#32 <<< (4 * k)) >>> (4 * k) = 0xF#32 := by interval_cases k <;> rfl
  have hand := Nat.and_two_pow_sub_one_eq_mod (v.toNat >>> (4 * k)) 4
  rw [nibble, BitVec.ushiftRight_and_distrib, hmask, BitVec.toNat_and, BitVec.toNat_ushiftRight]
  rw [Nat.shiftRight_eq_div_pow, pow_mul] at hand
  rw [Nat.shiftRight_eq_div_pow, pow_mul]
  exact hand

/-- Nothing of a masked nibble lies below it. -/
theorem nibble_of_shift_eq_zero {v : BitVec 32} {k : Nat} (h : nibble v k >>> (4 * k) = 0) : nibble v k = 0 := by
  apply BitVec.eq_of_getLsbD_eq
  intro i hi
  by_cases hlow : i < 4 * k
  · simp [nibble, hlow]
  · have hbit := congrArg (fun x => BitVec.getLsbD x (i - 4 * k)) h
    simpa [BitVec.getLsbD_ushiftRight, Nat.add_sub_of_le (Nat.not_lt.1 hlow)] using hbit

theorem nibble_ne_zero_iff (v : BitVec 32) {k : Nat} (hk : k ≤ 7) :
    nibble v k ≠ 0 ↔ v.toNat / 16 ^ k % 16 ≠ 0 := by
  rw [← nibble_toNat v hk, not_iff_not]
  constructor
  · intro h
    rw [h]
    simp
  · intro h
    exact nibble_of_shift_eq_zero (BitVec.toNat_inj.1 h)

/-- The search stops at the top digit. -/
theorem findDigit_spec {v : BitVec 32} {k : Nat} (hk : k ≤ 7) (h0 : v.toNat ≠ 0) (hlt : v.toNat < 16 ^ (k + 1)) :
    ∃ d, findDigit v k = some d ∧ d ≤ k ∧ 16 ^ d ≤ v.toNat ∧ v.toNat < 16 ^ (d + 1) := by
  induction k with
  | zero =>
    have hn : nibble v 0 ≠ 0 := by
      rw [nibble_ne_zero_iff v hk]
      omega
    exact ⟨0, by rw [findDigit, if_pos hn], Nat.le_refl _, by omega, hlt⟩
  | succ k ih =>
    by_cases hn : nibble v (k + 1) = 0
    · have hz : v.toNat / 16 ^ (k + 1) % 16 = 0 := by
        by_contra h
        exact (nibble_ne_zero_iff v hk).2 h hn
      have hq : v.toNat / 16 ^ (k + 1) < 16 := Nat.div_lt_of_lt_mul (by rw [← Nat.pow_succ]; exact hlt)
      rw [Nat.mod_eq_of_lt hq] at hz
      have hlt' : v.toNat < 16 ^ (k + 1) := (Nat.div_eq_zero_iff_lt (by positivity)).1 hz
      obtain ⟨d, hd, hle, hb⟩ := ih (by omega) hlt'
      exact ⟨d, by simp [findDigit, hn, hd], by omega, hb⟩
    · have hq : v.toNat / 16 ^ (k + 1) ≠ 0 := by
        intro h
        exact (nibble_ne_zero_iff v hk).1 hn (by rw [h])
      refine ⟨k + 1, by rw [findDigit, if_pos hn], Nat.le_refl _, ?_, hlt⟩
      by_contra h
      exact hq (Nat.div_eq_of_lt (Nat.not_le.1 h))

theorem printDigits_eq (v : BitVec 32) {k : Nat} (hk : k ≤ 7) :
    printDigits v k = (List.range (k + 1)).reverse.map fun i => digitChar (v.toNat / 16 ^ i % 16) := by
  induction k with
  | zero =>
    have h := nibble_toNat v hk
    rw [Nat.mul_zero, BitVec.ushiftRight_zero] at h
    simp [printDigits, h]
  | succ k ih =>
    rw [List.range_succ, List.reverse_append, printDigits, ih (by omega), nibble_toNat v hk]
    rfl

/-- The base-16 digits of a word, most significant first; a zero is one digit. -/
def hexString (v : BitVec 32) : List Char :=
  if v = 0 then ['0'] else (Nat.digits 16 v.toNat).reverse.map digitChar

/-- **`%x` prints the base-16 digits.** -/
theorem printHex_eq (v : BitVec 32) : printHex v = .ok (hexString v) := by
  unfold printHex hexString
  by_cases hv : v = 0
  · simp [hv]
  · have h0 : v.toNat ≠ 0 := fun h => hv (BitVec.toNat_inj.1 h)
    obtain ⟨d, hd, hle, hlo, hhi⟩ := findDigit_spec (v := v) (Nat.le_refl 7) h0 (by have := v.isLt; omega)
    have hlen : (Nat.digits 16 v.toNat).length = d + 1 := by
      have h1 := (Nat.lt_digits_length_iff (b := 16) (by omega) v.toNat).2 hlo
      have h2 := (Nat.digits_length_le_iff (b := 16) (by omega) v.toNat).2 hhi
      omega
    rw [if_neg hv, if_neg hv, hd]
    simp only [printDigits_eq v hle, List.map_reverse]
    congr 2
    apply List.ext_getElem (by simp [hlen])
    intro i h1 h2
    have hi : i < (Nat.digits 16 v.toNat).length := by simpa using h2
    have hget := Nat.getD_digits v.toNat i (b := 16) (by omega)
    rw [List.getD_eq_getElem?_getD, List.getElem?_eq_getElem hi, Option.getD_some] at hget
    simp [hget]

end NuttyNios
