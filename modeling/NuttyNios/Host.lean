import NuttyNios.Firmware
import NuttyNios.Lib.Rounding
/-!
# The host's reader (test.py:8-35)

| here | there |
| --- | --- |
| `pyStrip`, `pyInt16`, `pyTrueDiv` | `str.strip`, `int(_, 16)`, `/` of two integers |
| `twosComp`, `processData`         | `twos_comp`, `process_data` |
| `recieveLine`                     | the body of the `for` in `reciever`: what is printed, if the line is not skipped |

Python's integers are `Int`, and a float is the rational number it stands for: `pyTrueDiv` rounds to
53 bits and raises where the result would pass the largest float. `decimal` is the Unicode value of
a decimal digit outside ASCII, which `int` accepts too.
-/

namespace NuttyNios
open Buffer Rounding

inductive PyError
  | unicodeDecodeError
  | valueError
  | overflowError
  | typeError
deriving DecidableEq

/-! ## What is used of Python -/

/-- `bytes.decode()`. -/
def pyDecode (line : List UInt8) : Except PyError (List Char) :=
  match line.toByteArray.utf8Decode? with
  | some cs => .ok cs.toList
  | none => .error .unicodeDecodeError

/-- The characters `str.strip` takes off. -/
def isPySpace (c : Char) : Bool :=
  let n := c.toNat
  (9 ≤ n && n ≤ 13) || (28 ≤ n && n ≤ 32) || n == 0x85 || n == 0xA0 || n == 0x1680 ||
    (0x2000 ≤ n && n ≤ 0x200A) || n == 0x2028 || n == 0x2029 || n == 0x202F || n == 0x205F || n == 0x3000

def pyStrip (s : List Char) : List Char := ((s.dropWhile isPySpace).reverse.dropWhile isPySpace).reverse

/-- C's `isspace`, which `int` skips around the number. -/
def isCSpace (c : Char) : Bool := (9 ≤ c.toNat && c.toNat ≤ 13) || c == ' '

/-- The value of a digit in the largest base, 37 for anything else. -/
def digitValue (c : Char) : Nat :=
  let n := c.toNat
  if 48 ≤ n ∧ n ≤ 57 then n - 48 else if 97 ≤ n ∧ n ≤ 122 then n - 87
  else if 65 ≤ n ∧ n ≤ 90 then n - 55 else 37

/-- Digits with single underscores between them, and what follows; `under` if the last character was
an underscore. -/
def scanDigits (under : Bool) : List Char → Option (List Nat × List Char)
  | [] => if under then none else some ([], [])
  | c :: cs =>
    if c = '_' then if under then none else scanDigits true cs
    else if digitValue c < 16 then (scanDigits false cs).map fun (ds, rest) => (digitValue c :: ds, rest)
    else if under then none else some ([], c :: cs)

/-- `0x` or `0X`, and one underscore after it, are skipped. -/
def skipRadix (s : List Char) : List Char :=
  if s.take 2 = ['0', 'x'] ∨ s.take 2 = ['0', 'X'] then
    if (s.drop 2).head? = some '_' then s.drop 3 else s.drop 2
  else s

section
variable (decimal : Char → Option Nat)

/-- `int` reads other scripts' spaces and decimal digits as the ASCII ones. -/
def toAscii (c : Char) : Char :=
  if c.toNat < 128 then c else if isPySpace c then ' '
  else match decimal c with
    | some d => Char.ofNat (48 + d)
    | none => '?'

/-- `int(s, 16)`. -/
def pyInt16 (s : List Char) : Except PyError Int :=
  let s := (s.map (toAscii decimal)).dropWhile isCSpace
  let negative := s.head? = some '-'
  let s := if s.head? = some '-' ∨ s.head? = some '+' then s.tail else s
  let s := skipRadix s
  if s.head? = some '_' then .error .valueError
  else match scanDigits false s with
    | some (d :: ds, rest) =>
      if rest.all isCSpace then
        let n : Nat := Nat.ofDigits 16 (d :: ds).reverse
        .ok (if negative then -n else n)
      else .error .valueError
    | _ => .error .valueError

/-- `a / 2 ** k`, for `k` small enough that no result is subnormal. -/
def pyTrueDiv (a : Int) (k : Nat) : Except PyError ℚ :=
  let m := toBitsInt 53 a
  if m.natAbs < 2 ^ (1024 + k) then .ok (m / 2 ^ k) else .error .overflowError

/-! ## test.py -/

/-- `twos_comp` (test.py:8). -/
def twosComp (val : Int) (bits : Nat) : Int :=
  if val / 2 ^ (bits - 1) % 2 ≠ 0 then val - 2 ^ bits     -- bit `bits - 1` of `val`
  else val

/-- The dictionary `process_data` returns. -/
structure Telemetry where
  axes : List ℚ
  buttons : Int
  switches : Int

/-- `process_data` (test.py:13). -/
def processData (rawData : List Char) : Except PyError (Option Telemetry) := do
  let arr := rawData.splitOn ','
  if arr.length ≠ 5 then return none
  let arr ← arr.mapM (pyInt16 decimal)
  let coords ← (arr.take 3).mapM fun x => pyTrueDiv (twosComp x 32) 23     -- 8388608
  return some ⟨coords, arr.getD 3 0, arr.getD 4 0⟩

/-- The loop body of `reciever` (test.py:29-35), from the bytes of a line: `none` if it is skipped. -/
def recieveLine (line : List UInt8) : Except PyError (Option (List ℚ)) := do
  let rawData := pyStrip (← pyDecode line)
  if rawData = [] ∨ rawData.head? = some 'n' then return none
  match ← processData decimal rawData with
  | some data => return some data.axes
  | none => throw .typeError

end

/-! ## Reading a hexadecimal field -/

/-- A character that none of the reader's special cases is about. -/
def Plain (c : Char) : Prop :=
  c.toNat < 128 ∧ isPySpace c = false ∧ isCSpace c = false ∧ c ∉ ['_', '+', '-', ',', 'n', 'x', 'X']

instance (c : Char) : Decidable (Plain c) := by unfold Plain; infer_instance

theorem Plain.ne {c e : Char} (h : Plain c) (he : e ∈ ['_', '+', '-', ',', 'n', 'x', 'X']) : c ≠ e := by
  rintro rfl
  exact h.2.2.2 he

theorem digitChar_plain : ∀ d < 16, Plain (digitChar d) := by decide

theorem digitValue_digitChar : ∀ d < 16, digitValue (digitChar d) = d := by decide

/-- The digits of a field and the number they spell. -/
theorem hexString_digits (v : BitVec 32) : ∃ d ds, hexString v = (d :: ds).map digitChar ∧
    (∀ e ∈ d :: ds, e < 16) ∧ Nat.ofDigits 16 (d :: ds).reverse = v.toNat := by
  by_cases hv : v = 0
  · exact ⟨0, [], by simp [hexString, hv, digitChar], by simp, by simp [hv]⟩
  · have h0 : v.toNat ≠ 0 := fun h => hv (BitVec.toNat_inj.1 h)
    cases hd : (Nat.digits 16 v.toNat).reverse with
    | nil => exact absurd (Nat.digits_eq_nil_iff_eq_zero.1 (List.reverse_eq_nil_iff.1 hd)) h0
    | cons d ds =>
      refine ⟨d, ds, by rw [hexString, if_neg hv, hd], ?_, ?_⟩
      · intro e he
        rw [← hd] at he
        exact Nat.digits_lt_base (by omega) (List.mem_reverse.1 he)
      · rw [← hd, List.reverse_reverse, Nat.ofDigits_digits]

theorem hexString_plain (v : BitVec 32) : ∀ c ∈ hexString v, Plain c := by
  obtain ⟨d, ds, hs, hlt, -⟩ := hexString_digits v
  intro c hc
  rw [hs] at hc
  obtain ⟨e, he, rfl⟩ := List.mem_map.1 hc
  exact digitChar_plain e (hlt e he)

theorem skipRadix_of_plain {s : List Char} (h : ∀ c ∈ s, Plain c) : skipRadix s = s := by
  refine if_neg ?_
  rintro (hx | hx)
  · have hm : 'x' ∈ s := List.mem_of_mem_take (i := 2) (by rw [hx]; simp)
    exact (h 'x' hm).ne (by simp) rfl
  · have hm : 'X' ∈ s := List.mem_of_mem_take (i := 2) (by rw [hx]; simp)
    exact (h 'X' hm).ne (by simp) rfl

/-- Digits alone are read to the end. -/
theorem scanDigits_digits {ds : List Nat} (h : ∀ d ∈ ds, d < 16) :
    scanDigits false (ds.map digitChar) = some (ds, []) := by
  induction ds with
  | nil => rfl
  | cons d ds ih =>
    have hd : d < 16 := h d (List.mem_cons_self ..)
    have hu : digitChar d ≠ '_' := (digitChar_plain d hd).ne (by simp)
    have ih := ih fun e he => h e (List.mem_cons_of_mem d he)
    rw [List.map_cons, scanDigits, if_neg hu, digitValue_digitChar d hd, if_pos hd, ih]
    rfl

/-- **A printed field is read back**, as an unsigned number. -/
theorem pyInt16_hexString (decimal : Char → Option Nat) (v : BitVec 32) :
    pyInt16 decimal (hexString v) = .ok v.toNat := by
  have hplain := hexString_plain v
  have hascii : (hexString v).map (toAscii decimal) = hexString v :=
    (List.map_congr_left fun c hc => if_pos (hplain c hc).1).trans (List.map_id _)
  obtain ⟨d, ds, hs, hlt, hval⟩ := hexString_digits v
  have hd := digitChar_plain d (hlt d (List.mem_cons_self ..))
  have hhead : (hexString v).head? = some (digitChar d) := by rw [hs]; rfl
  have hdrop : (hexString v).dropWhile isCSpace = hexString v := by
    rw [hs, List.map_cons, List.dropWhile_cons_of_neg (by simp [hd.2.2.1])]
  have hminus : digitChar d ≠ '-' := hd.ne (by simp)
  have hplus : digitChar d ≠ '+' := hd.ne (by simp)
  have hunder : digitChar d ≠ '_' := hd.ne (by simp)
  unfold pyInt16
  simp only [hascii, hdrop, hhead, skipRadix_of_plain hplain, Option.some.injEq, hminus, hplus, hunder,
    or_self, ↓reduceIte]
  rw [hs, scanDigits_digits hlt]
  simp only [List.all_nil, ↓reduceIte, hval]

/-! ## A whole line -/

/-- **The sign comes back.** -/
theorem twosComp_toNat (v : BitVec 32) : twosComp v.toNat 32 = v.toInt := by
  have hlt := v.isLt
  rw [twosComp, BitVec.toInt_eq_toNat_cond]
  split <;> split <;> omega

/-- A numerator of up to 53 bits is not rounded. -/
theorem pyTrueDiv_of_lt {a : Int} (k : Nat) (h : a.natAbs < 2 ^ 53) : pyTrueDiv a k = .ok ((a : ℚ) / 2 ^ k) := by
  have hbig : a.natAbs < 2 ^ (1024 + k) := Nat.lt_of_lt_of_le h (Nat.pow_le_pow_right (by decide) (by omega))
  rw [pyTrueDiv, toBitsInt_of_lt h, if_pos hbig]

theorem natAbs_toInt_lt (v : BitVec 32) : v.toInt.natAbs < 2 ^ 53 := by
  have hlo := BitVec.le_two_mul_toInt (x := v)
  have hhi := BitVec.two_mul_toInt_lt (x := v)
  omega

/-- The fields of a line, without the newline. -/
def fields (a b c d e : BitVec 32) : List (List Char) :=
  [hexString a, hexString b, hexString c, hexString d, hexString e]

theorem telemetry_eq (a b c d e : BitVec 32) :
    telemetry a b c d e = [','].intercalate (fields a b c d e) ++ ['\n'] := by
  simp [telemetry, fields, List.intercalate]

theorem splitOn_fields (a b c d e : BitVec 32) :
    ([','].intercalate (fields a b c d e)).splitOn ',' = fields a b c d e := by
  refine List.splitOn_intercalate ',' ?_ (by simp [fields])
  intro l hl hmem
  have hplain : ∀ v : BitVec 32, ',' ∉ hexString v := fun v h => (hexString_plain v ',' h).ne (by simp) rfl
  simp only [fields, List.mem_cons, List.not_mem_nil, or_false] at hl
  rcases hl with rfl | rfl | rfl | rfl | rfl <;> exact hplain _ hmem

theorem mem_fields {a b c d e : BitVec 32} {ch : Char} (h : ch ∈ [','].intercalate (fields a b c d e)) :
    ch = ',' ∨ Plain ch := by
  have hm : ch ∈ hexString a ∨ ch = ',' ∨ ch ∈ hexString b ∨ ch = ',' ∨ ch ∈ hexString c ∨ ch = ',' ∨
      ch ∈ hexString d ∨ ch = ',' ∨ ch ∈ hexString e := by
    simpa [fields, List.intercalate] using h
  rcases hm with h | h | h | h | h | h | h | h | h
  all_goals first | exact .inl h | exact .inr (hexString_plain _ ch h)

/-- Only the newline is stripped. -/
theorem pyStrip_newline {s : List Char} (h : ∀ c ∈ s, isPySpace c = false) : pyStrip (s ++ ['\n']) = s := by
  have hn : isPySpace '\n' = true := by decide
  cases s with
  | nil => simp [pyStrip, hn]
  | cons c mid =>
    have hfront : (c :: mid ++ ['\n']).dropWhile isPySpace = c :: mid ++ ['\n'] := by
      rw [List.cons_append, List.dropWhile_cons_of_neg (by simp [h c])]
    have hback : (c :: mid).reverse.dropWhile isPySpace = (c :: mid).reverse :=
      List.dropWhile_eq_self_iff.2 fun hl => by
        rw [h _ (List.mem_reverse.1 (List.getElem_mem hl))]
        simp
    rw [pyStrip, hfront, List.reverse_append, List.reverse_singleton, List.singleton_append,
      List.dropWhile_cons_of_pos hn, hback, List.reverse_reverse]

/-- `alt_putchar`: one byte for each character. -/
def wire (line : List Char) : List UInt8 := line.map fun c => c.val.toUInt8

theorem wire_cons (c : Char) (line : List Char) : wire (c :: line) = c.val.toUInt8 :: wire line := rfl

/-- ASCII is its own UTF-8. -/
theorem wire_toByteArray {line : List Char} (h : ∀ c ∈ line, c.toNat < 128) :
    (wire line).toByteArray = line.utf8Encode := by
  induction line with
  | nil => simp [wire]
  | cons c line ih =>
    have ih := ih fun e he => h e (List.mem_cons_of_mem c he)
    have hsize : c.utf8Size = 1 := by
      rw [Char.utf8Size_eq_one_iff, UInt32.le_iff_toNat_le]
      exact Nat.le_of_lt_succ (h c (List.mem_cons_self ..))
    rw [List.utf8Encode_cons, List.utf8Encode_singleton, String.utf8EncodeChar_eq_singleton hsize, ← ih, wire_cons,
      ← List.toByteArray_append, List.singleton_append]

theorem pyDecode_wire {line : List Char} (h : ∀ c ∈ line, c.toNat < 128) : pyDecode (wire line) = .ok line := by
  rw [pyDecode, wire_toByteArray h, List.utf8Decode?_utf8Encode]

theorem pyStrip_telemetry (a b c d e : BitVec 32) :
    pyStrip (telemetry a b c d e) = [','].intercalate (fields a b c d e) := by
  rw [telemetry_eq]
  refine pyStrip_newline fun ch hch => ?_
  rcases mem_fields hch with rfl | h
  · decide
  · exact h.2.1

theorem pyDecode_telemetry (a b c d e : BitVec 32) :
    pyDecode (wire (telemetry a b c d e)) = .ok (telemetry a b c d e) := by
  refine pyDecode_wire fun ch hch => ?_
  rw [telemetry_eq] at hch
  rcases List.mem_append.1 hch with h | h
  · rcases mem_fields h with rfl | h
    · decide
    · exact h.1
  · rw [List.mem_singleton.1 h]
    decide

theorem processData_fields (decimal : Char → Option Nat) (x y z b s : BitVec 32) :
    processData decimal ([','].intercalate (fields x y z b s)) =
      .ok (some ⟨[x.toInt / 2 ^ 23, y.toInt / 2 ^ 23, z.toInt / 2 ^ 23], b.toNat, s.toNat⟩) := by
  have hcoord : ∀ v : BitVec 32, pyTrueDiv (twosComp v.toNat 32) 23 = .ok ((v.toInt : ℚ) / 2 ^ 23) := by
    intro v
    rw [twosComp_toNat, pyTrueDiv_of_lt 23 (natAbs_toInt_lt v)]
  unfold processData
  rw [splitOn_fields]
  simp [fields, pyInt16_hexString, hcoord, bind, Except.bind, pure, Except.pure]

/-- The line starts with a digit, so it is not taken for the terminal's greeting. -/
theorem fields_head (a b c d e : BitVec 32) : [','].intercalate (fields a b c d e) ≠ [] ∧
    ([','].intercalate (fields a b c d e)).head? ≠ some 'n' := by
  obtain ⟨i, is, hs, hlt, -⟩ := hexString_digits a
  have hhead : ([','].intercalate (fields a b c d e)).head? = some (digitChar i) := by
    simp [fields, List.intercalate, hs]
  constructor
  · intro h
    rw [h] at hhead
    cases hhead
  · rw [hhead]
    intro h
    exact (digitChar_plain i (hlt i (List.mem_cons_self ..))).ne (by simp) (Option.some.inj h)

/-- **Telemetry decodes to what was sent.** The line printed for any three filtered values and any two
port values is not skipped, and its axes are the signed values over `2 ** 23`, exactly, its buttons
and switches the unsigned values. -/
theorem telemetry_roundtrip (decimal : Char → Option Nat) (x y z b s : BitVec 32) :
    ∃ line raw, altPrintf telemetryFormat [.word x, .word y, .word z, .word b, .word s] = .ok line ∧
      pyDecode (wire line) = .ok raw ∧
      processData decimal (pyStrip raw) =
        .ok (some ⟨[x.toInt / 2 ^ 23, y.toInt / 2 ^ 23, z.toInt / 2 ^ 23], b.toNat, s.toNat⟩) ∧
      recieveLine decimal (wire line) = .ok (some [x.toInt / 2 ^ 23, y.toInt / 2 ^ 23, z.toInt / 2 ^ 23]) := by
  obtain ⟨hne, hhead⟩ := fields_head x y z b s
  refine ⟨telemetry x y z b s, telemetry x y z b s, altPrintf_telemetry x y z b s, pyDecode_telemetry x y z b s,
    ?_, ?_⟩
  · rw [pyStrip_telemetry, processData_fields]
  · simp only [recieveLine, pyDecode_telemetry, bind, Except.bind, pyStrip_telemetry, hne, hhead, or_self, ↓reduceIte,
      processData_fields]
    rfl

end NuttyNios
