import NuttyNios.Lib.Machine
import NuttyNios.Literal
/-!
# Which lines the host survives (test.py:13-35)

`reciever` skips a blank line and one that starts with `'n'`, and takes any other for telemetry. Then
`process_data` returns nothing unless there are five fields, which `reciever` subscripts all the same;
`int` raises on a field that is no hexadecimal number; and the division raises on a number no float can
hold. `recieveLine_survives_iff` says that these are all the ways to fail.
-/

namespace NuttyNios
open Rounding

/-- A number the division by `2 ** 23` can take: after the sign recovery, less than half a unit below
the first power of two that is too large for a float. -/
def Representable (v : Int) : Prop := (twosComp v 32).natAbs + 2 ^ 993 < 2 ^ 1047

/-- Five fields, comma-separated: three hexadecimal numbers that fit a float, and two of any size. -/
def Readable (s : List Char) : Prop := ∃ x y z b w vx vy vz vb vw, s.splitOn ',' = [x, y, z, b, w] ∧
  (HexLiteral x vx ∧ Representable vx) ∧ (HexLiteral y vy ∧ Representable vy) ∧
  (HexLiteral z vz ∧ Representable vz) ∧ HexLiteral b vb ∧ HexLiteral w vw

/-! ## Steps that can raise -/

section
variable {ε α β : Type}

/-- A map that can raise gives a list exactly when it gives each of its elements. -/
theorem mapM_ok_iff {f : α → Except ε β} {l : List α} {bs : List β} :
    l.mapM f = .ok bs ↔ List.Forall₂ (fun a b => f a = .ok b) l bs := by
  induction l generalizing bs with
  | nil =>
    rw [List.mapM_nil, List.forall₂_nil_left_iff]
    exact ⟨fun h => by cases h; rfl, fun h => by rw [h]; rfl⟩
  | cons a l ih =>
    rw [List.mapM_cons, bind_ok_iff]
    simp only [bind_ok_iff]
    constructor
    · rintro ⟨b, hb, bs', hbs, he⟩
      cases he
      exact .cons hb (ih.1 hbs)
    · intro h
      obtain ⟨b, bs', hb, hbs, rfl⟩ := List.forall₂_cons_left_iff.1 h
      exact ⟨b, hb, bs', ih.2 hbs, rfl⟩

end

/-! ## The division -/

theorem pyTrueDiv_ok_iff (v : Int) : (∃ q, pyTrueDiv (twosComp v 32) 23 = .ok q) ↔ Representable v := by
  have hround := toBits_lt_iff (p := 53) (k := 1047) (n := (twosComp v 32).natAbs) (by decide) (by decide)
  simp only [Nat.reduceSub] at hround
  unfold Representable
  rw [← hround, ← natAbs_toBitsInt]
  simp only [pyTrueDiv, Nat.reduceAdd]
  split_ifs with h
  · exact iff_of_true ⟨_, rfl⟩ h
  · refine iff_of_false ?_ h
    rintro ⟨q, hq⟩
    cases hq

/-! ## The fields -/

theorem mem_intercalate {α : Type} {sep c : α} {l : List (List α)} {f : List α} (hf : f ∈ l) (hc : c ∈ f) :
    c ∈ [sep].intercalate l := by
  induction l with
  | nil => cases hf
  | cons g l ih =>
    cases l with
    | nil =>
      rw [List.mem_singleton.1 hf] at hc
      simpa using hc
    | cons g' l =>
      rw [List.intercalate_cons_cons]
      rcases List.mem_cons.1 hf with rfl | hf
      · simp [hc]
      · simp [ih hf]

theorem field_ascii {s f : List Char} (hascii : ∀ c ∈ s, c.toNat < 128) (hf : f ∈ s.splitOn ',') :
    ∀ c ∈ f, c.toNat < 128 := by
  intro c hc
  have hmem : c ∈ List.intercalate [','] (s.splitOn ',') := mem_intercalate hf hc
  rw [List.intercalate_splitOn] at hmem
  exact hascii c hmem

/-- **`process_data` returns a dictionary exactly for a readable line.** -/
theorem processData_some_iff (decimal : Char → Option Nat) {s : List Char} (hascii : ∀ c ∈ s, c.toNat < 128) :
    (∃ t, processData decimal s = .ok (some t)) ↔ Readable s := by
  have hint : ∀ {f v}, f ∈ s.splitOn ',' → (pyInt16 decimal f = .ok v ↔ HexLiteral f v) := fun hf =>
    pyInt16_iff decimal (field_ascii hascii hf) _
  by_cases hlen : (s.splitOn ',').length = 5
  · obtain ⟨x, y, z, b, w, hs⟩ : ∃ x y z b w, s.splitOn ',' = [x, y, z, b, w] := by
      match h : s.splitOn ',', hlen with
      | [x, y, z, b, w], _ => exact ⟨x, y, z, b, w, rfl⟩
    rw [hs] at hint
    have hfive : processData decimal s = (do
        let arr ← [x, y, z, b, w].mapM (pyInt16 decimal)
        let coords ← (arr.take 3).mapM fun x => pyTrueDiv (twosComp x 32) 23
        return some ⟨coords, arr.getD 3 0, arr.getD 4 0⟩) := by
      rw [processData, hs]
      rfl
    rw [hfive]
    simp only [bind_ok_iff, mapM_ok_iff]
    constructor
    · rintro ⟨t, arr, harr, coords, hcoords, -⟩
      obtain ⟨vx, _, hx, harr₁, rfl⟩ := List.forall₂_cons_left_iff.1 harr
      obtain ⟨vy, _, hy, harr₂, rfl⟩ := List.forall₂_cons_left_iff.1 harr₁
      obtain ⟨vz, _, hz, harr₃, rfl⟩ := List.forall₂_cons_left_iff.1 harr₂
      obtain ⟨vb, _, hb, harr₄, rfl⟩ := List.forall₂_cons_left_iff.1 harr₃
      obtain ⟨vw, _, hw, -, rfl⟩ := List.forall₂_cons_left_iff.1 harr₄
      obtain ⟨qx, _, hqx, hcoords₁, rfl⟩ := List.forall₂_cons_left_iff.1 hcoords
      obtain ⟨qy, _, hqy, hcoords₂, rfl⟩ := List.forall₂_cons_left_iff.1 hcoords₁
      obtain ⟨qz, _, hqz, -, rfl⟩ := List.forall₂_cons_left_iff.1 hcoords₂
      exact ⟨x, y, z, b, w, vx, vy, vz, vb, vw, hs, ⟨(hint (by simp)).1 hx, (pyTrueDiv_ok_iff vx).1 ⟨qx, hqx⟩⟩,
        ⟨(hint (by simp)).1 hy, (pyTrueDiv_ok_iff vy).1 ⟨qy, hqy⟩⟩,
        ⟨(hint (by simp)).1 hz, (pyTrueDiv_ok_iff vz).1 ⟨qz, hqz⟩⟩, (hint (by simp)).1 hb, (hint (by simp)).1 hw⟩
    · rintro ⟨x', y', z', b', w', vx, vy, vz, vb, vw, hs', ⟨hx, rx⟩, ⟨hy, ry⟩, ⟨hz, rz⟩, hb, hw⟩
      cases hs.symm.trans hs'
      obtain ⟨qx, hqx⟩ := (pyTrueDiv_ok_iff vx).2 rx
      obtain ⟨qy, hqy⟩ := (pyTrueDiv_ok_iff vy).2 ry
      obtain ⟨qz, hqz⟩ := (pyTrueDiv_ok_iff vz).2 rz
      refine ⟨⟨[qx, qy, qz], vb, vw⟩, [vx, vy, vz, vb, vw], ?_, [qx, qy, qz], ?_, rfl⟩
      · exact .cons ((hint (by simp)).2 hx) (.cons ((hint (by simp)).2 hy) (.cons ((hint (by simp)).2 hz)
          (.cons ((hint (by simp)).2 hb) (.cons ((hint (by simp)).2 hw) .nil))))
      · exact .cons hqx (.cons hqy (.cons hqz .nil))
  · refine iff_of_false ?_ ?_
    · rintro ⟨t, ht⟩
      rw [processData, if_pos hlen] at ht
      cases ht
    · rintro ⟨x, y, z, b, w, vx, vy, vz, vb, vw, hs, -⟩
      rw [hs] at hlen
      exact hlen rfl

/-! ## The loop body -/

theorem pyStrip_ascii {s : List Char} (h : ∀ c ∈ s, c.toNat < 128) : ∀ c ∈ pyStrip s, c.toNat < 128 := by
  intro c hc
  unfold pyStrip at hc
  have h1 := List.dropWhile_subset _ (List.mem_reverse.1 hc)
  exact h c (List.dropWhile_subset _ (List.mem_reverse.1 h1))

/-- **Which lines the host survives.** On an ASCII line the loop body of `reciever` raises nothing exactly
when the stripped line is blank, starts with `'n'`, or is readable. -/
theorem recieveLine_survives_iff (decimal : Char → Option Nat) (line : List Char)
    (hascii : ∀ c ∈ line, c.toNat < 128) :
    (∃ printed, recieveLine decimal (wire line) = .ok printed) ↔
      pyStrip line = [] ∨ (pyStrip line).head? = some 'n' ∨ Readable (pyStrip line) := by
  have hsome := processData_some_iff decimal (pyStrip_ascii hascii)
  simp only [recieveLine, pyDecode_wire hascii, bind, Except.bind]
  by_cases hskip : pyStrip line = [] ∨ (pyStrip line).head? = some 'n'
  · rw [if_pos hskip]
    refine iff_of_true ⟨_, rfl⟩ ?_
    rcases hskip with h | h
    · exact .inl h
    · exact .inr (.inl h)
  · rw [if_neg hskip, ← hsome]
    obtain ⟨hne, hn⟩ := not_or.1 hskip
    simp only [hne, hn, false_or]
    cases hp : processData decimal (pyStrip line) with
    | error e => simp
    | ok data =>
      cases data with
      | none =>
        refine iff_of_false ?_ ?_
        · rintro ⟨printed, h⟩
          cases h
        · rintro ⟨t, h⟩
          cases h
      | some t => exact iff_of_true ⟨_, rfl⟩ ⟨t, rfl⟩

/-- Five zeros. -/
theorem recieveLine_survives_zeros : ∃ printed,
    recieveLine (fun _ => none) (wire ['0', ',', '0', ',', '0', ',', '0', ',', '0', '\n']) = .ok printed := by
  have hzero : HexLiteral ['0'] 0 := pyInt16_sound (fun _ => none) (by simp) rfl
  have hrep : Representable 0 := by
    unfold Representable
    rw [show (twosComp 0 32).natAbs = 0 from rfl, Nat.zero_add]
    gcongr <;> decide
  exact (recieveLine_survives_iff (fun _ => none) ['0', ',', '0', ',', '0', ',', '0', ',', '0', '\n'] (by simp)).2
    (.inr (.inr ⟨_, _, _, _, _, 0, 0, 0, 0, 0, rfl, ⟨hzero, hrep⟩, ⟨hzero, hrep⟩, ⟨hzero, hrep⟩, hzero, hzero⟩))

/-- `"[ERROR] ACCELEROMETER MISSING\n"` (main.c:208) -/
def accelerometerMissing : List Char := ['[', 'E', 'R', 'R', 'O', 'R', ']', ' ', 'A', 'C', 'C', 'E', 'L', 'E', 'R', 'O',
  'M', 'E', 'T', 'E', 'R', ' ', 'M', 'I', 'S', 'S', 'I', 'N', 'G', '\n']

/-- The firmware's own error line has one field: `process_data` returns nothing, which is subscripted. -/
theorem recieveLine_raises_error : ¬ ∃ printed,
    recieveLine (fun _ => none) (wire accelerometerMissing) = .ok printed := by
  have hall : (accelerometerMissing.all fun c => c.toNat < 128) = true := rfl
  have hascii : ∀ c ∈ accelerometerMissing, c.toNat < 128 := fun c hc => by
    simpa using List.all_eq_true.1 hall c hc
  have hraise : recieveLine (fun _ => none) (wire accelerometerMissing) = .error .typeError := by
    simp only [recieveLine, pyDecode_wire hascii, bind, Except.bind]
    rfl
  rw [hraise]
  rintro ⟨printed, h⟩
  cases h

end NuttyNios
