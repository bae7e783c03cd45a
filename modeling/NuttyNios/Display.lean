import NuttyNios.Lib.Buffer
import NuttyNios.Lib.Loop
/-!
# The seven-segment helpers (utils.h:59-101)

`decode7seg` takes the bytes that lie around the table in memory as a parameter: an index
outside `0..74` reads one of them. `decodeIndex` is that index, so the lookup is in bounds
exactly when `Displayable` holds (`decodeIndex_inBounds`): the guards stop everything above
`'z'`, but below `'0'` only the space.
-/

namespace NuttyNios
open Buffer Loop

def sevenSegDigitsDecodeGfedcba : Vector UInt8 75 := #v[
  0x3F, 0x06, 0x5B, 0x4F, 0x66, 0x6D, 0x7D, 0x07, 0x7F, 0x6F, 0x00, 0x00,
  0x00, 0x00, 0x00, 0x00, 0x00, 0x77, 0x7C, 0x39, 0x5E, 0x79, 0x71, 0x3D,
  0x76, 0x30, 0x1E, 0x75, 0x38, 0x55, 0x54, 0x5C, 0x73, 0x67, 0x50, 0x6D,
  0x78, 0x3E, 0x1C, 0x1D, 0x64, 0x6E, 0x5B, 0x00, 0x00, 0x00, 0x00, 0x00,
  0x00, 0x77, 0x7C, 0x39, 0x5E, 0x79, 0x71, 0x3D, 0x76, 0x30, 0x1E, 0x75,
  0x38, 0x55, 0x54, 0x5C, 0x73, 0x67, 0x50, 0x6D, 0x78, 0x3E, 0x1C, 0x1D,
  0x64, 0x6E, 0x5B]

/-- The index `decode_7seg` reads the table at, or `none` when a guard returns first. -/
def decodeIndex (chr : UInt8) : Option Int :=
  if chr = 32 then none            -- ' '
  else if chr = 255 then none
  else if chr > 122 then none      -- 'z'
  else some (chr.toNat - 48)       -- '0'

/-- `decode_7seg` (utils.h:76); `outside` is the memory around the table. -/
def decode7seg (outside : Int → UInt8) (chr : UInt8) : UInt8 :=
  match decodeIndex chr with
  | none => 0xFF
  | some i => ~~~ if h : 0 ≤ i ∧ i < 75 then sevenSegDigitsDecodeGfedcba[i.toNat] else outside i

/-- The bytes `decode_7seg` handles within its table or its guards. -/
def Displayable (chr : UInt8) : Prop := chr = 32 ∨ 48 ≤ chr

instance (chr : UInt8) : Decidable (Displayable chr) := by unfold Displayable; infer_instance

theorem decodeIndex_inBounds (chr : UInt8) :
    (∀ i, decodeIndex chr = some i → 0 ≤ i ∧ i ≤ 74) ↔ Displayable chr := by
  have hz : chr > 122 ↔ 122 < chr.toNat := by rw [gt_iff_lt, UInt8.lt_iff_toNat_lt]; rfl
  have h0 : 48 ≤ chr ↔ 48 ≤ chr.toNat := by rw [UInt8.le_iff_toNat_le]; rfl
  unfold decodeIndex Displayable
  by_cases hs : chr = 32
  · simp [hs]
  · by_cases hf : chr = 255
    · simp [hf]
    · by_cases hgt : chr > 122
      · have := hz.1 hgt
        simp only [hs, hf, hgt, ↓reduceIte, reduceCtorEq, false_imp_iff, implies_true, false_or, h0, true_iff]
        omega
      · have hle := mt hz.2 hgt
        simp only [hs, hf, hgt, ↓reduceIte, Option.some.injEq, forall_eq', false_or, h0]
        omega

/-! ## The display buffer -/

/-- `setBuffer` (utils.h:86). -/
def setBuffer (word buffer : Vector UInt8 25) : Except Fault (Vector UInt8 25) := do
  let buffer ← memset buffer 255 25
  let n ← strlen word
  memcpy buffer word 0 n

/-- `buffer[i-1] = buffer[i]`, with the index shifted down by one. -/
def shiftDown (i : Fin 24) (buffer : Vector UInt8 25) : Vector UInt8 25 := buffer.set i buffer[i.succ]

/-- `shiftBuffer` (utils.h:91). -/
def shiftBuffer (buffer : Vector UInt8 25) : Vector UInt8 25 :=
  let tmp := buffer.get 0
  let buffer := forUpTo 24 shiftDown buffer
  buffer.set 24 tmp

/-- `getWindow` (utils.h:99): all of `window` is overwritten. -/
def getWindow (buffer : Vector UInt8 25) : Vector UInt8 6 := ofList (buffer.toList.take 6) (by simp)

@[simp] theorem getWindow_toList (buffer : Vector UInt8 25) : (getWindow buffer).toList = buffer.toList.take 6 := rfl

/-- The first `k` rounds have moved entries `1..k` down by one, and touched nothing else. -/
theorem shiftDown_loop (buffer : Vector UInt8 25) (i : Nat) (hi : i < 25) :
    (forUpTo 24 shiftDown buffer)[i] = if h : i < 24 then buffer[i + 1] else buffer[i] := by
  let Inv (k : Nat) (b : Vector UInt8 25) : Prop :=
    ∀ i (_ : i < 25), b[i] = if h : i < k ∧ i < 24 then buffer[i + 1] else buffer[i]
  have h0 : Inv 0 buffer := fun i _ => by simp
  have hstep : ∀ (k : Fin 24) b, Inv k b → Inv (k + 1) (shiftDown k b) := by
    intro k b ih i hi
    have hk := ih (k + 1) (by omega)
    rw [dif_neg (by omega)] at hk
    unfold shiftDown
    by_cases he : k.val = i
    · subst he
      rw [Vector.getElem_set_self, dif_pos (by omega)]
      exact hk
    · rw [Vector.getElem_set_ne _ _ he]
      refine (ih i hi).trans ?_
      split <;> split <;> first | rfl | omega
  have h := forUpTo_inv Inv h0 hstep i hi
  simpa using h

/-- **`shiftBuffer` rotates left by one**, keeping every byte. -/
theorem shiftBuffer_toList (buffer : Vector UInt8 25) : (shiftBuffer buffer).toList = buffer.toList.rotate 1 := by
  apply List.ext_getElem (by simp)
  intro i h1 h2
  have hi : i < 25 := by simpa using h1
  rw [List.getElem_rotate, Vector.getElem_toList]
  simp only [Vector.length_toList, Vector.getElem_toList]
  unfold shiftBuffer
  by_cases hl : i = 24
  · subst hl
    rw [Vector.getElem_set_self]
    rfl
  · have hlt : i < 24 := by omega
    rw [Vector.getElem_set_ne _ _ (Ne.symm hl)]
    refine (shiftDown_loop buffer i hi).trans ?_
    rw [dif_pos hlt]
    simp only [Nat.mod_eq_of_lt (show i + 1 < 25 by omega)]

/-- What `setBuffer` shows of a string: up to its NUL, filled up to 25 bytes with 255. -/
def padded (text : List UInt8) : List UInt8 := text ++ List.replicate (25 - text.length) 255

/-- **`setBuffer`** leaves the padded string, whatever the buffer held. -/
theorem setBuffer_ok (word : Vector UInt8 25) (h : (0 : UInt8) ∈ word.toList) (buffer : Vector UInt8 25) :
    ∃ b, setBuffer word buffer = .ok b ∧ b.toList = padded (cstr word.toList) := by
  obtain ⟨b₁, h1, l1⟩ := memset_full buffer 255
  have hlen := cstr_length_le word
  obtain ⟨b₂, h2, l2⟩ := memcpy_of_le b₁ word (i := 0) (k := (cstr word.toList).length) (by omega) hlen
  refine ⟨b₂, ?_, ?_⟩
  · simp only [setBuffer, h1, strlen_of_mem h, bind, Except.bind]
    exact h2
  · rw [l2, l1, List.drop_zero, List.drop_replicate, padded]
    congr 1
    exact (List.prefix_iff_eq_take.1 (cstr_isInit _)).symm

/-- Without a NUL in `word` the scan runs off it. -/
theorem setBuffer_fault (word : Vector UInt8 25) (h : (0 : UInt8) ∉ word.toList) (buffer : Vector UInt8 25) :
    setBuffer word buffer = .error .load := by
  obtain ⟨b₁, h1, -⟩ := memset_full buffer 255
  simp only [setBuffer, h1, strlen, h, ↓reduceIte, bind, Except.bind]

end NuttyNios
