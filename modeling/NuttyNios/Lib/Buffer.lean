import Mathlib
/-!
# Fixed-size buffers and the C functions that fill them

A C array of length `n` is a `Vector α n`. An access whose bounds the code does not know
statically goes through `load`, `store`, `memcpy` or `strlen`, which stop with a `Fault`
when they would leave the array: what C does from there on is undefined, so a run has no
later state. Everything is stated on `toList`, where copies and fills are `take`, `drop`
and `++`.
-/

namespace Buffer

/-- What a run can stop on. -/
inductive Fault
  /-- A read outside an array. -/
  | load
  /-- A write outside an array. -/
  | store
  /-- A shift by the operand's width or more. -/
  | shift
  /-- A variadic argument that was not passed, or passed with another type. -/
  | vararg
deriving DecidableEq, Repr

variable {α : Type} {n m : Nat}

/-- A list of the right length, as an array. -/
def ofList (l : List α) (h : l.length = n) : Vector α n := ⟨l.toArray, by simpa using h⟩

@[simp] theorem toList_ofList (l : List α) (h : l.length = n) : (ofList l h).toList = l := rfl

@[simp] theorem getElem_ofList (l : List α) (h : l.length = n) (i : Nat) (hi : i < n) :
    (ofList l h)[i] = l[i] := rfl

theorem toList_ext {a b : Vector α n} (h : a.toList = b.toList) : a = b := Vector.toList_inj.1 h

/-- `a[i] = x`. -/
def store (a : Vector α n) (i : Nat) (x : α) : Except Fault (Vector α n) :=
  if h : i < n then .ok (a.set i x h) else .error .store

/-- Reading `k` elements from `a + i`. -/
def load (a : Vector α n) (i k : Nat) : Except Fault (List α) :=
  if i + k ≤ n then .ok ((a.toList.drop i).take k) else .error .load

/-- `memset(a, x, k)`. -/
def memset (a : Vector α n) (x : α) (k : Nat) : Except Fault (Vector α n) :=
  if h : k ≤ n then .ok (ofList (List.replicate k x ++ a.toList.drop k) (by simp; omega))
  else .error .store

/-- The store half of `memcpy(dst, src, k)`, `src` being the `k` elements loaded. -/
def write (dst : Vector α n) (src : List α) : Except Fault (Vector α n) :=
  if h : src.length ≤ n then .ok (ofList (src ++ dst.toList.drop src.length) (by simp; omega))
  else .error .store

/-- `memcpy(dst, src + i, k)`. -/
def memcpy (dst : Vector α n) (src : Vector α m) (i k : Nat) : Except Fault (Vector α n) := do
  let bytes ← load src i k
  write dst bytes

/-- The C string at the start of a list of bytes: up to the first NUL. -/
def cstr (l : List UInt8) : List UInt8 := l.takeWhile (· ≠ 0)

/-- `strlen(a)`: the index of the first NUL; a fault when the scan runs off the array. -/
def strlen (a : Vector UInt8 n) : Except Fault Nat :=
  if (0 : UInt8) ∈ a.toList then .ok (cstr a.toList).length else .error .load

/-! ## When each succeeds, and what it leaves -/

theorem store_of_lt (a : Vector α n) {i : Nat} (x : α) (h : i < n) :
    ∃ b, store a i x = .ok b ∧ b.toList = a.toList.set i x :=
  ⟨a.set i x h, by simp [store, h], Vector.toList_set h⟩

theorem load_of_le (a : Vector α n) {i k : Nat} (h : i + k ≤ n) :
    load a i k = .ok ((a.toList.drop i).take k) := by simp [load, h]

theorem memset_of_le (a : Vector α n) (x : α) {k : Nat} (h : k ≤ n) :
    ∃ b, memset a x k = .ok b ∧ b.toList = List.replicate k x ++ a.toList.drop k :=
  ⟨_, by simp only [memset, h, ↓reduceDIte]; rfl, rfl⟩

theorem memset_full (a : Vector α n) (x : α) :
    ∃ b, memset a x n = .ok b ∧ b.toList = List.replicate n x := by
  obtain ⟨b, hb, hl⟩ := memset_of_le a x (Nat.le_refl n)
  exact ⟨b, hb, by rw [hl, List.drop_of_length_le (by simp)]; simp⟩

theorem write_of_le (a : Vector α n) {src : List α} (h : src.length ≤ n) :
    ∃ b, write a src = .ok b ∧ b.toList = src ++ a.toList.drop src.length :=
  ⟨_, by simp only [write, h, ↓reduceDIte]; rfl, rfl⟩

theorem write_error (a : Vector α n) {src : List α} (h : n < src.length) : write a src = .error .store := by
  simp [write, Nat.not_le.2 h]

theorem length_load {a : Vector α n} {i k : Nat} (h : i + k ≤ n) : ((a.toList.drop i).take k).length = k := by
  simp; omega

/-- `memcpy` inside both arrays: the first `k` elements change, the rest stay. -/
theorem memcpy_of_le (dst : Vector α n) (src : Vector α m) {i k : Nat} (hs : i + k ≤ m) (hd : k ≤ n) :
    ∃ b, memcpy dst src i k = .ok b ∧
      b.toList = (src.toList.drop i).take k ++ dst.toList.drop k := by
  have hl := length_load (a := src) hs
  obtain ⟨b, hb, e⟩ := write_of_le dst (show ((src.toList.drop i).take k).length ≤ n by omega)
  rw [hl] at e
  refine ⟨b, ?_, e⟩
  show (do let bytes ← load src i k; write dst bytes) = _
  rw [load_of_le src hs]; exact hb

/-! ## C strings -/

theorem strlen_of_mem {a : Vector UInt8 n} (h : (0 : UInt8) ∈ a.toList) :
    strlen a = .ok (cstr a.toList).length := by simp [strlen, h]

theorem cstr_isInit (l : List UInt8) : cstr l <+: l := List.takeWhile_prefix _

theorem cstr_length_le (a : Vector UInt8 n) : (cstr a.toList).length ≤ n := by
  simpa using (cstr_isInit a.toList).length_le

/-- What follows a NUL is not part of the string. -/
theorem cstr_append_zero (l stale : List UInt8) : cstr (l ++ 0 :: stale) = cstr l := by
  unfold cstr
  rw [List.takeWhile_append]
  split
  · next hl =>
    rw [(List.takeWhile_prefix _).eq_of_length hl]
    simp
  · rfl

theorem cstr_take (l : List UInt8) (k : Nat) : cstr (l.take k) = (cstr l).take k :=
  List.take_takeWhile.symm

/-- The first `k` bytes hold a NUL exactly when the string is shorter than that. -/
theorem zero_mem_take_iff {l : List UInt8} {k : Nat} (hk : k ≤ l.length) :
    0 ∈ l.take k ↔ (cstr l).length < k := by
  constructor
  · intro h
    by_contra hge
    have h0 : 0 ∈ cstr l := by
      rw [List.prefix_iff_eq_take.1 (cstr_isInit l)]
      exact List.take_subset_take_left l (Nat.not_lt.1 hge) h
    simpa using List.mem_takeWhile_imp h0
  · intro h
    by_contra hm
    have hself : cstr (l.take k) = l.take k :=
      List.takeWhile_eq_self_iff.2 fun b hb => decide_eq_true fun h0 => hm (h0 ▸ hb)
    have hlen := congrArg List.length ((cstr_take l k).symm.trans hself)
    simp only [List.length_take] at hlen
    omega

end Buffer
