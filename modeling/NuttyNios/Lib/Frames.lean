import Mathlib
/-!
# Frames of a terminated stream

A stream over `α` cut at every occurrence of a terminator `t`: the complete frames (`frames`)
and what has come in since the last terminator (`rest`). Both are read off
`List.splitOn`; the lemmas say how they grow, one element and one chunk at a time.
-/

namespace Frames

variable {α : Type} [DecidableEq α]

/-- The terminated segments, in stream order. -/
def frames (t : α) (xs : List α) : List (List α) := (xs.splitOn t).dropLast

/-- Everything after the last terminator. -/
def rest (t : α) (xs : List α) : List α := (xs.splitOn t).getLast (List.splitOn_ne_nil t xs)

variable {t : α}

theorem frames_append_rest (xs : List α) : frames t xs ++ [rest t xs] = xs.splitOn t :=
  List.dropLast_concat_getLast _

/-- A split that ends in `r` after `fs` has frames `fs` and rest `r`. -/
theorem eq_of_splitOn {xs : List α} {fs : List (List α)} {r : List α} (h : xs.splitOn t = fs ++ [r]) :
    frames t xs = fs ∧ rest t xs = r := by
  rw [← frames_append_rest] at h
  obtain ⟨hf, hr⟩ := List.append_inj' h rfl
  exact ⟨hf, by simpa using hr⟩

theorem frames_of_not_mem {xs : List α} (h : t ∉ xs) : frames t xs = [] ∧ rest t xs = xs :=
  eq_of_splitOn (by simpa using List.splitOn_eq_singleton h)

/-- Cutting past a terminator: the segment it closes, then the frames of what follows. -/
theorem frames_append_cons {p : List α} (h : t ∉ p) (xs : List α) :
    frames t (p ++ t :: xs) = p :: frames t xs ∧ rest t (p ++ t :: xs) = rest t xs := by
  apply eq_of_splitOn
  rw [List.splitOn_append_cons_self_of_not_mem h, ← frames_append_rest xs]
  rfl

/-- Induction on a stream, one terminated segment at a time. -/
theorem cut_induction {P : List α → Prop} (base : ∀ xs, t ∉ xs → P xs)
    (cut : ∀ p xs, t ∉ p → P xs → P (p ++ t :: xs)) (xs : List α) : P xs := by
  by_cases hm : t ∈ xs
  · obtain ⟨p, ys, he, hp⟩ := List.eq_append_cons_of_mem hm
    rw [he]
    exact cut p ys hp (cut_induction base cut ys)
  · exact base xs hm
termination_by xs.length
decreasing_by rw [he]; simp; omega

theorem rest_not_mem (xs : List α) : t ∉ rest t xs := by
  induction xs using cut_induction (t := t) with
  | base xs hm => rwa [(frames_of_not_mem hm).2]
  | cut p xs hp ih => rwa [(frames_append_cons hp xs).2]

theorem length_rest_le (xs : List α) : (rest t xs).length ≤ xs.length := by
  induction xs using cut_induction (t := t) with
  | base xs hm => exact Nat.le_of_eq (by rw [(frames_of_not_mem hm).2])
  | cut p xs hp ih => rw [(frames_append_cons hp xs).2]; simp; omega

/-- **Chunk rule**: what a chunk `ys` completes is cut from the rest so far followed by `ys`. -/
theorem frames_append (xs ys : List α) :
    frames t (xs ++ ys) = frames t xs ++ frames t (rest t xs ++ ys) ∧
    rest t (xs ++ ys) = rest t (rest t xs ++ ys) := by
  induction xs using cut_induction (t := t) with
  | base xs hm => simp [frames_of_not_mem hm]
  | cut p xs hp ih =>
    obtain ⟨f1, r1⟩ := frames_append_cons hp xs
    obtain ⟨f2, r2⟩ := frames_append_cons hp (xs ++ ys)
    simp only [List.append_assoc, List.cons_append, f1, r1, f2, r2, ih.1, ih.2, and_self]

/-- A frame for each terminator. -/
theorem length_frames (xs : List α) : (frames t xs).length = xs.count t := by
  induction xs using cut_induction (t := t) with
  | base xs hm => rw [(frames_of_not_mem hm).1, List.count_eq_zero_of_not_mem hm]; rfl
  | cut p xs hp ih =>
    rw [(frames_append_cons hp xs).1, List.length_cons, ih, List.count_append, List.count_cons_self,
      List.count_eq_zero_of_not_mem hp, Nat.zero_add]

theorem frames_eq_nil_iff {xs : List α} : frames t xs = [] ↔ t ∉ xs := by
  rw [← List.length_eq_zero_iff, length_frames, List.count_eq_zero]

/-! ## A stream in chunks -/

/-- For each chunk, the last frame it completes; `p` is what was left before the first one. -/
def lasts (t : α) : List α → List (List α) → List (Option (List α))
  | _, [] => []
  | p, c :: cs => (frames t (p ++ c)).getLast? :: lasts t (rest t (p ++ c)) cs

theorem frames_append_chunk (p c xs : List α) :
    frames t (p ++ (c ++ xs)) = frames t (p ++ c) ++ frames t (rest t (p ++ c) ++ xs) := by
  rw [← List.append_assoc, (frames_append (p ++ c) xs).1]

theorem length_frames_chunk {p : List α} (hp : t ∉ p) (c : List α) :
    (frames t (p ++ c)).length = c.count t := by
  rw [length_frames, List.count_append, List.count_eq_zero_of_not_mem hp, Nat.zero_add]

theorem lasts_cons (p c : List α) (cs : List (List α)) : (lasts t p (c :: cs)).reduceOption =
    (frames t (p ++ c)).getLast?.toList ++ (lasts t (rest t (p ++ c)) cs).reduceOption := by
  rw [lasts]
  cases (frames t (p ++ c)).getLast? <;> simp

theorem lasts_append {p : List α} (hp : t ∉ p) (cs ds : List (List α)) :
    lasts t p (cs ++ ds) = lasts t p cs ++ lasts t (rest t (p ++ cs.flatten)) ds := by
  induction cs generalizing p with
  | nil => simp [lasts, (frames_of_not_mem hp).2]
  | cons c cs ih =>
    rw [List.cons_append, lasts, lasts, List.cons_append, ih (rest_not_mem _), List.flatten_cons,
      ← List.append_assoc, (frames_append (p ++ c) cs.flatten).2]

/-- Nothing is completed by nothing. -/
theorem lasts_replicate_nil {p : List α} (hp : t ∉ p) (n : Nat) :
    (lasts t p (List.replicate n [])).reduceOption = [] := by
  induction n with
  | zero => rfl
  | succ n ih =>
    obtain ⟨f, r⟩ := frames_of_not_mem hp
    rw [List.replicate_succ, lasts_cons, List.append_nil, f, r, ih]
    rfl

omit [DecidableEq α] in
theorem getLast?_toList_sublist (xs : List α) : List.Sublist xs.getLast?.toList xs := by
  rcases List.eq_nil_or_concat xs with rfl | ⟨ys, y, rfl⟩ <;> simp

/-- The last frames of the chunks are frames of the stream, in stream order. -/
theorem lasts_sublist (cs : List (List α)) (p : List α) :
    (lasts t p cs).reduceOption.Sublist (frames t (p ++ cs.flatten)) := by
  induction cs generalizing p with
  | nil => simp [lasts]
  | cons c cs ih =>
    rw [lasts_cons, List.flatten_cons, frames_append_chunk]
    exact (getLast?_toList_sublist _).append (ih _)

omit [DecidableEq α] in
theorem getLast?_toList_eq_iff {xs : List α} : xs.getLast?.toList = xs ↔ xs.length ≤ 1 := by
  match xs with
  | [] => simp
  | [x] => simp
  | x :: y :: zs =>
    simp only [List.length_cons, Nat.reduceLeDiff, iff_false]
    intro h
    have hl := congrArg List.length h
    rw [List.getLast?_cons_cons] at hl
    have h1 : ∀ o : Option α, o.toList.length ≤ 1 := by intro o; cases o <;> simp
    have := h1 (y :: zs).getLast?
    simp at hl
    omega

/-- The last frames of the chunks are all the frames exactly when no chunk has two terminators. -/
theorem lasts_eq_frames_iff (cs : List (List α)) (p : List α) (hp : t ∉ p) :
    (lasts t p cs).reduceOption = frames t (p ++ cs.flatten) ↔ ∀ c ∈ cs, c.count t ≤ 1 := by
  induction cs generalizing p with
  | nil => simp [lasts, (frames_of_not_mem hp).1]
  | cons c cs ih =>
    rw [lasts_cons, List.flatten_cons, frames_append_chunk, List.forall_mem_cons, ← length_frames_chunk hp]
    have ih := ih (rest t (p ++ c)) (rest_not_mem _)
    constructor
    · intro h
      -- both halves are sublists of what they must equal, so each is equal on its own
      have s1 := getLast?_toList_sublist (frames t (p ++ c))
      have s2 := lasts_sublist cs (rest t (p ++ c)) (t := t)
      have hl := congrArg List.length h
      rw [List.length_append, List.length_append] at hl
      have := s1.length_le
      have := s2.length_le
      have e1 := s1.eq_of_length (by omega)
      have e2 := s2.eq_of_length (by omega)
      exact ⟨getLast?_toList_eq_iff.1 e1, ih.1 e2⟩
    · rintro ⟨h1, h2⟩
      rw [getLast?_toList_eq_iff.2 h1, ih.2 h2]

end Frames
