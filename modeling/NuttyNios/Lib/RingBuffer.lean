import NuttyNios.Lib.Buffer
/-!
# A ring buffer with one producer and one consumer

`inp` is the next slot the producer fills and `out` the next one the consumer empties. One slot
always stays free, so that `inp = out` means empty. `contents` are the elements in between.

Neither side needs the other to stand still. The producer stores into free slots (`contents_put`)
and then advances `inp` (`contents_setIn`); the consumer copies from the front (`get_front`) and
then advances `out` (`contents_setOut`). An index of the other side sampled earlier only makes it
take or fill less than it could.
-/

/-- The storage and the two indices. -/
structure RingBuffer (α : Type) (N : Nat) where
  buf : Vector α N
  inp : Nat
  out : Nat
  inp_lt : inp < N
  out_lt : out < N

namespace RingBuffer
open Buffer

variable {α : Type} {N : Nat}

/-- How many steps lead from slot `a` to slot `b`. -/
def dist (N a b : Nat) : Nat := if a ≤ b then b - a else b + N - a

/-- The slot `k` after `i`. -/
theorem add_mod_eq {i k : Nat} (hi : i < N) (hk : k ≤ N) :
    (i + k) % N = if i + k < N then i + k else i + k - N := by
  split
  · next h => exact Nat.mod_eq_of_lt h
  · next h => rw [Nat.mod_eq_sub_mod (Nat.not_lt.1 h), Nat.mod_eq_of_lt (by omega)]

theorem dist_lt {a b : Nat} (ha : a < N) (hb : b < N) : dist N a b < N := by
  unfold dist
  split <;> omega

theorem dist_eq_zero_iff {a b : Nat} (ha : a < N) : dist N a b = 0 ↔ b = a := by
  unfold dist
  split <;> omega

theorem dist_add_mod {a b k : Nat} (ha : a < N) (hb : b < N) (hk : dist N a b + k < N) :
    dist N a ((b + k) % N) = dist N a b + k := by
  rw [add_mod_eq hb (by omega)]
  unfold dist at *
  split_ifs at * <;> omega

theorem dist_mod_add {a b k : Nat} (ha : a < N) (hb : b < N) (hk : k ≤ dist N a b) :
    dist N ((a + k) % N) b = dist N a b - k := by
  have hlt := dist_lt ha hb
  rw [add_mod_eq ha (by omega)]
  unfold dist at *
  split_ifs at * <;> omega

theorem mod_dist {a b : Nat} (ha : a < N) (hb : b < N) : (a + dist N a b) % N = b := by
  rw [add_mod_eq ha (dist_lt ha hb).le]
  unfold dist
  split_ifs <;> omega

/-- The number of elements. -/
def count (r : RingBuffer α N) : Nat := dist N r.out r.inp

/-- All slots, from `out` once round. -/
def view (r : RingBuffer α N) : List α := r.buf.toList.rotate r.out

/-- The elements, oldest first. -/
def contents (r : RingBuffer α N) : List α := r.view.take r.count

theorem pos (r : RingBuffer α N) : 0 < N := Nat.lt_of_le_of_lt (Nat.zero_le _) r.inp_lt

theorem count_lt (r : RingBuffer α N) : r.count < N := dist_lt r.out_lt r.inp_lt

@[simp] theorem length_view (r : RingBuffer α N) : r.view.length = N := by
  rw [view, List.length_rotate, Vector.length_toList]

@[simp] theorem length_contents (r : RingBuffer α N) : r.contents.length = r.count := by
  rw [contents, List.length_take, length_view, Nat.min_eq_left r.count_lt.le]

theorem contents_eq_nil_iff (r : RingBuffer α N) : r.contents = [] ↔ r.inp = r.out := by
  rw [← List.length_eq_zero_iff, length_contents, count, dist_eq_zero_iff r.out_lt]

theorem getElem_view (r : RingBuffer α N) {k : Nat} (hk : k < r.view.length) (hs : (r.out + k) % N < N) :
    r.view[k] = r.buf[(r.out + k) % N] := by
  have hlen : r.buf.toList.length = N := Vector.length_toList
  simp only [view, List.getElem_rotate, hlen, Vector.getElem_toList, Nat.add_comm k]

/-- The slot `k` after `inp` is `count + k` after `out`. -/
theorem inp_add (r : RingBuffer α N) (k : Nat) : (r.inp + k) % N = (r.out + (r.count + k)) % N := by
  have h := mod_dist r.out_lt r.inp_lt
  rw [count, ← Nat.add_assoc, Nat.add_mod (r.out + dist N r.out r.inp), h, ← Nat.mod_eq_of_lt r.inp_lt,
    ← Nat.add_mod, Nat.mod_eq_of_lt r.inp_lt]

/-! ## The operations -/

/-- `buf[i] = x`. -/
def put (r : RingBuffer α N) (i : Nat) (x : α) : Except Fault (RingBuffer α N) := do
  let buf ← store r.buf i x
  return { r with buf }

/-- `buf[i]`. -/
def get (r : RingBuffer α N) (i : Nat) : Except Fault α :=
  if h : i < N then .ok r.buf[i] else .error .load

/-- `inp = i % N`. -/
def setIn (r : RingBuffer α N) (i : Nat) : RingBuffer α N := { r with inp := i % N, inp_lt := Nat.mod_lt _ r.pos }

/-- `out = i % N`. -/
def setOut (r : RingBuffer α N) (i : Nat) : RingBuffer α N := { r with out := i % N, out_lt := Nat.mod_lt _ r.pos }

@[simp] theorem setIn_out (r : RingBuffer α N) (i : Nat) : (r.setIn i).out = r.out := rfl
@[simp] theorem setIn_inp (r : RingBuffer α N) (i : Nat) : (r.setIn i).inp = i % N := rfl
@[simp] theorem setIn_view (r : RingBuffer α N) (i : Nat) : (r.setIn i).view = r.view := rfl
@[simp] theorem setOut_inp (r : RingBuffer α N) (i : Nat) : (r.setOut i).inp = r.inp := rfl
@[simp] theorem setOut_out (r : RingBuffer α N) (i : Nat) : (r.setOut i).out = i % N := rfl

/-- A store reaches one slot, counted from `out`. -/
theorem put_view (r : RingBuffer α N) {i k : Nat} (hk : k < N) (hi : i = (r.out + k) % N) (x : α) :
    ∃ r', r.put i x = .ok r' ∧ r'.inp = r.inp ∧ r'.out = r.out ∧ r'.view = r.view.set k x := by
  have hlt : i < N := hi ▸ Nat.mod_lt _ r.pos
  refine ⟨{ r with buf := r.buf.set i x hlt }, ?_, rfl, rfl, ?_⟩
  · simp only [put, store, dif_pos hlt]
    rfl
  apply List.ext_getElem (by simp)
  intro j h1 h2
  have hj : j < N := by simpa using h1
  have hs : (r.out + j) % N < N := Nat.mod_lt _ r.pos
  rw [getElem_view _ h1 hs, List.getElem_set]
  by_cases hkj : k = j
  · subst hkj
    rw [if_pos rfl]
    simp only [← hi, Vector.getElem_set_self]
  · have hne : i ≠ (r.out + j) % N := by
      rw [hi, add_mod_eq r.out_lt hk.le, add_mod_eq r.out_lt hj.le]
      split_ifs <;> omega
    rw [if_neg hkj, getElem_view r (by simpa using hj) hs]
    exact Vector.getElem_set_ne hlt hs hne

/-- **Consuming from the front**: without wrapping, the slots from `out` on are the contents. -/
theorem get_front (r : RingBuffer α N) {k : Nat} (hk : k < r.contents.length) (hlt : r.out + k < N) :
    r.get (r.out + k) = .ok r.contents[k] := by
  have hmod : (r.out + k) % N = r.out + k := Nat.mod_eq_of_lt hlt
  have hs : (r.out + k) % N < N := Nat.mod_lt _ r.pos
  have hv : k < r.view.length := by
    rw [length_view]
    omega
  rw [get, dif_pos hlt]
  simp only [contents, List.getElem_take, getElem_view r hv hs, hmod]

theorem count_setOut (r : RingBuffer α N) {k : Nat} (hk : k ≤ r.count) :
    (r.setOut (r.out + k)).count = r.count - k := dist_mod_add r.out_lt r.inp_lt hk

theorem view_setOut (r : RingBuffer α N) (k : Nat) : (r.setOut (r.out + k)).view = r.view.rotate k := by
  rw [view, view, List.rotate_rotate, setOut_out]
  conv_rhs => rw [← List.rotate_mod, Vector.length_toList]
  rfl

/-- **Consuming**: advancing `out` drops from the front. -/
theorem contents_setOut (r : RingBuffer α N) {k : Nat} (hk : k ≤ r.count) :
    (r.setOut (r.out + k)).contents = r.contents.drop k := by
  have hlt := r.count_lt
  rw [contents, count_setOut r hk, view_setOut, List.rotate_eq_drop_append_take (by rw [length_view]; omega),
    contents, List.drop_take, List.take_append_of_le_length (by rw [List.length_drop, length_view]; omega)]

/-- The elements from `out` on that lie in one piece, `inp` being where they end. -/
def filled (N inp out : Nat) : Nat := if out ≤ inp then inp - out else N - out

theorem filled_le {inp out : Nat} (ho : out < N) (hi : inp < N) :
    filled N inp out ≤ dist N out inp ∧ out + filled N inp out ≤ N := by
  unfold filled dist
  split_ifs <;> omega

theorem filled_eq_zero_iff {inp out : Nat} (ho : out < N) : filled N inp out = 0 ↔ inp = out := by
  unfold filled
  split_ifs <;> omega

/-! ## The producer -/

/-- The slots from `inp` on hold `l`, and there is room for it. -/
structure Staged (r : RingBuffer α N) (l : List α) : Prop where
  room : r.count + l.length < N
  behind : r.contents ++ l <+: r.view

theorem staged_nil (r : RingBuffer α N) : r.Staged [] where
  room := r.count_lt
  behind := by
    rw [List.append_nil]
    exact List.take_prefix _ _

/-- Storing behind what is staged leaves the contents as they were. -/
theorem Staged.put {r : RingBuffer α N} {l : List α} (h : r.Staged l) (hroom : r.count + (l.length + 1) < N)
    {i : Nat} (hi : i = (r.inp + l.length) % N) (x : α) :
    ∃ r', r.put i x = .ok r' ∧ r'.contents = r.contents ∧ r'.inp = r.inp ∧ r'.out = r.out ∧
      r'.Staged (l ++ [x]) := by
  rw [inp_add] at hi
  obtain ⟨r', hput, hin, hout, hview⟩ := r.put_view (by omega) hi x
  have hcount : r'.count = r.count := by rw [count, count, hin, hout]
  have hcont : r'.contents = r.contents := by
    rw [contents, contents, hcount, hview, List.take_set_of_le (by omega)]
  refine ⟨r', hput, hcont, hin, hout, ?_, ?_⟩
  · rw [hcount, List.length_append]
    exact hroom
  · obtain ⟨t, ht⟩ := h.behind
    rw [hcont, hview, ← ht, List.set_append_right _ _ (by simp), List.length_append, length_contents,
      Nat.sub_self, ← List.append_assoc]
    cases t with
    | nil =>
      have hlen := congrArg List.length ht
      simp at hlen
      omega
    | cons y t =>
      exact ⟨t, by simp⟩

/-- **Producing**: advancing `inp` over what is staged appends it. -/
theorem Staged.setIn {r : RingBuffer α N} {l : List α} (h : r.Staged l) {i : Nat} (hi : i = r.inp + l.length) :
    (r.setIn i).contents = r.contents ++ l := by
  subst hi
  have hcount : (r.setIn (r.inp + l.length)).count = r.count + l.length := dist_add_mod r.out_lt r.inp_lt h.room
  rw [contents, hcount, setIn_view]
  obtain ⟨t, ht⟩ := h.behind
  rw [← ht, List.take_left' (by simp)]

/-- Consuming makes no difference to what is staged. -/
theorem Staged.setOut {r : RingBuffer α N} {l : List α} (h : r.Staged l) {k : Nat} (hk : k ≤ r.count) :
    (r.setOut (r.out + k)).Staged l := by
  have hlt := r.count_lt
  have hroom := h.room
  refine ⟨by rw [count_setOut r hk]; omega, ?_⟩
  obtain ⟨t, ht⟩ := h.behind
  rw [contents_setOut r hk, view_setOut, ← ht, List.rotate_eq_drop_append_take (by simp; omega), List.append_assoc,
    List.drop_append_of_le_length (by simpa using hk), ← List.append_assoc, List.append_assoc]
  exact List.prefix_append _ _

/-- `inp + 1` has reached `out` when one more element would fill the last slot. -/
theorem full_iff (r : RingBuffer α N) : (r.inp + 1) % N = r.out ↔ r.count + 1 = N := by
  have hi := r.inp_lt
  have ho := r.out_lt
  rw [add_mod_eq hi (by omega)]
  unfold count dist
  split_ifs <;> omega

/-- One element stored at `inp`, and `inp` advanced. -/
theorem push (r : RingBuffer α N) (h : (r.inp + 1) % N ≠ r.out) (x : α) :
    ∃ r', r.put r.inp x = .ok r' ∧ r'.inp = r.inp ∧ r'.out = r.out ∧
      (r'.setIn (r.inp + 1)).contents = r.contents ++ [x] := by
  have hroom : r.count + 1 < N := by
    have hlt := r.count_lt
    have hne : r.count + 1 ≠ N := fun hc => h (r.full_iff.2 hc)
    omega
  obtain ⟨r', hput, hcont, hin, hout, hst⟩ := r.staged_nil.put hroom (Nat.mod_eq_of_lt r.inp_lt).symm x
  refine ⟨r', hput, hin, hout, ?_⟩
  rw [hst.setIn (by rw [hin]; rfl), hcont, List.nil_append]

/-- The free slots from `inp` on that lie in one piece, `out` being where the elements begin. -/
def free (N inp out : Nat) : Nat :=
  if inp < out then out - 1 - inp else if 0 < out then N - inp else N - 1 - inp

theorem free_le {inp out : Nat} (ho : out < N) (hi : inp < N) :
    dist N out inp + free N inp out < N ∧ inp + free N inp out ≤ N := by
  unfold free dist
  split_ifs <;> omega

theorem free_eq_zero_iff {inp out : Nat} (ho : out < N) (hi : inp < N) :
    free N inp out = 0 ↔ dist N out inp + 1 = N := by
  unfold free dist
  split_ifs <;> omega

end RingBuffer
