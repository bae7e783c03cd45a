import Mathlib
/-!
# Machines that may stop on a fault

A machine takes one input at a time and either moves to a next state, with an output, or
stops on an error. `run` is a whole run; `emitted` is what a run put out before it stopped,
so it also speaks about runs that end in an error.

The rules: `run_inv` and `run_inv_of` (a property every step keeps, or every step of a kind), `run_history` (a
property of the state, the inputs and the outputs so far), `run_total` (no step can stop), `run_simulates` (a
machine that follows another), `always_of_never` (a property that only steps of one kind
break) and its converse `never_of_always`, `run_reaches` (termination).
-/

theorem bind_ok_iff {ε α β : Type} {x : Except ε α} {f : α → Except ε β} {b : β} :
    (do let a ← x; f a) = .ok b ↔ ∃ a, x = .ok a ∧ f a = .ok b := by
  cases x with
  | error e => simp [bind, Except.bind]
  | ok a => simp [bind, Except.bind]

/-- An error of a call after which nothing can fail is the error of the call. -/
theorem bind_pure_error {ε α β : Type} {x : Except ε α} {f : α → β} {e : ε}
    (h : (do let a ← x; return f a) = .error e) : x = .error e := by
  cases x with
  | error e' => exact congrArg Except.error (Except.error.inj h)
  | ok a => cases h

/-- A step function with outputs and errors. -/
structure Machine (σ ι ω ε : Type) where
  step : σ → ι → Except ε (σ × ω)

namespace Machine

variable {σ ι ω ε : Type} (M : Machine σ ι ω ε)

/-- All the inputs, one after the other; one output for each. -/
def run : σ → List ι → Except ε (σ × List ω)
  | s, [] => .ok (s, [])
  | s, i :: is => do
    let (s', o) ← M.step s i
    let (t, os) ← run s' is
    return (t, o :: os)

/-- The outputs of the steps taken before the first error. -/
def emitted : σ → List ι → List ω
  | _, [] => []
  | s, i :: is => match M.step s i with
    | .ok (s', o) => o :: emitted s' is
    | .error _ => []

variable {M}

theorem run_cons {s t : σ} {i : ι} {is : List ι} {os : List ω} :
    M.run s (i :: is) = .ok (t, os) ↔
      ∃ s' o os', M.step s i = .ok (s', o) ∧ M.run s' is = .ok (t, os') ∧ os = o :: os' := by
  simp only [run]
  cases h : M.step s i with
  | error e => simp [bind, Except.bind]
  | ok p =>
    obtain ⟨s', o⟩ := p
    cases h2 : M.run s' is with
    | error e => simp [bind, Except.bind, h2]
    | ok q =>
      obtain ⟨t', os'⟩ := q
      simp only [bind, Except.bind, h2, pure, Except.pure, Except.ok.injEq, Prod.mk.injEq]
      constructor
      · rintro ⟨rfl, rfl⟩; exact ⟨s', o, os', ⟨rfl, rfl⟩, h2, rfl⟩
      · rintro ⟨_, _, _, ⟨rfl, rfl⟩, h3, rfl⟩
        rw [h2] at h3; cases h3; exact ⟨rfl, rfl⟩

theorem run_append {is : List ι} {s t : σ} {js : List ι} {os : List ω} :
    M.run s (is ++ js) = .ok (t, os) ↔
      ∃ s' os₁ os₂, M.run s is = .ok (s', os₁) ∧ M.run s' js = .ok (t, os₂) ∧ os = os₁ ++ os₂ := by
  induction is generalizing s os with
  | nil =>
    constructor
    · intro h; exact ⟨s, [], os, rfl, h, rfl⟩
    · rintro ⟨s', os₁, os₂, h1, h2, rfl⟩; cases h1; exact h2
  | cons i is ih =>
    simp only [List.cons_append, run_cons]
    constructor
    · rintro ⟨s', o, _, hs, hr, rfl⟩
      obtain ⟨u, os₁, os₂, h1, h2, rfl⟩ := ih.1 hr
      exact ⟨u, o :: os₁, os₂, ⟨s', o, os₁, hs, h1, rfl⟩, h2, rfl⟩
    · rintro ⟨u, _, os₂, ⟨s', o, os₁, hs, h1, rfl⟩, h2, rfl⟩
      exact ⟨s', o, os₁ ++ os₂, hs, ih.2 ⟨u, os₁, os₂, h1, h2, rfl⟩, rfl⟩

theorem run_concat {s t : σ} {is : List ι} {i : ι} {os : List ω} :
    M.run s (is ++ [i]) = .ok (t, os) ↔
      ∃ s' os' o, M.run s is = .ok (s', os') ∧ M.step s' i = .ok (t, o) ∧ os = os' ++ [o] := by
  rw [run_append]
  constructor
  · rintro ⟨s', os₁, os₂, h1, h2, rfl⟩
    obtain ⟨t', o, os', hs, hr, rfl⟩ := run_cons.1 h2
    cases hr
    exact ⟨s', os₁, o, h1, hs, rfl⟩
  · rintro ⟨s', os', o, h1, hs, rfl⟩
    exact ⟨s', os', [o], h1, run_cons.2 ⟨t, o, [], hs, rfl, rfl⟩, rfl⟩

/-- A run puts out one output for each input. -/
theorem run_length {is : List ι} {s t : σ} {os : List ω} (h : M.run s is = .ok (t, os)) :
    os.length = is.length := by
  induction is generalizing s os with
  | nil => cases h; rfl
  | cons i is ih =>
    obtain ⟨s', o, os', -, hr, rfl⟩ := run_cons.1 h
    simp [ih hr]

/-- **Each step of a run** is a step from the state its earlier inputs lead to. -/
theorem run_getElem {is : List ι} {s t : σ} {os : List ω} (h : M.run s is = .ok (t, os)) {k : Nat} {i : ι}
    (hi : is[k]? = some i) : ∃ s₁ os₁ s₂ o, M.run s (is.take k) = .ok (s₁, os₁) ∧ M.step s₁ i = .ok (s₂, o) ∧
      os[k]? = some o := by
  obtain ⟨hk, hik⟩ := List.getElem?_eq_some_iff.1 hi
  have hsplit : is.take k ++ (i :: is.drop (k + 1)) = is := by
    rw [← hik, List.getElem_cons_drop, List.take_append_drop]
  rw [← hsplit] at h
  obtain ⟨s₁, os₁, _, h1, h2, rfl⟩ := run_append.1 h
  obtain ⟨s₂, o, os₂, hs, -, rfl⟩ := run_cons.1 h2
  have hlen : os₁.length = k := by
    rw [run_length h1, List.length_take]
    omega
  refine ⟨s₁, os₁, s₂, o, h1, hs, ?_⟩
  rw [List.getElem?_append_right (Nat.le_of_eq hlen), hlen, Nat.sub_self]
  rfl

/-- Two steps of one run, and the run between them. -/
theorem run_between {is : List ι} {s t : σ} {os : List ω} (h : M.run s is = .ok (t, os)) {k l : Nat} {i j : ι}
    (hkl : k < l)
    (hi : is[k]? = some i) (hj : is[l]? = some j) :
    ∃ s₁ os₁ s₂ o s₃ os₃ s₄ o', M.run s (is.take k) = .ok (s₁, os₁) ∧ M.step s₁ i = .ok (s₂, o) ∧
      M.run s₂ ((is.take l).drop (k + 1)) = .ok (s₃, os₃) ∧ M.step s₃ j = .ok (s₄, o') ∧
      os[k]? = some o ∧ os[l]? = some o' := by
  obtain ⟨s₁, os₁, s₂, o, hr₁, hs₁, ho⟩ := run_getElem h hi
  obtain ⟨s₃, os₃, s₄, o', hr₃, hs₃, ho'⟩ := run_getElem h hj
  have hsplit : is.take l = is.take k ++ i :: (is.take l).drop (k + 1) := by
    obtain ⟨hk, hik⟩ := List.getElem?_eq_some_iff.1 hi
    have hkt : k < (is.take l).length := by
      obtain ⟨hl, -⟩ := List.getElem?_eq_some_iff.1 hj
      rw [List.length_take]
      omega
    calc is.take l = (is.take l).take k ++ (is.take l).drop k := (List.take_append_drop ..).symm
      _ = is.take k ++ i :: (is.take l).drop (k + 1) := by
        rw [List.take_take, Nat.min_eq_left hkl.le, List.drop_eq_getElem_cons hkt, List.getElem_take, hik]
  rw [hsplit] at hr₃
  obtain ⟨s₁', os₁', os₂', hr₁', hr₂, -⟩ := run_append.1 hr₃
  cases hr₁.symm.trans hr₁'
  obtain ⟨s₂', _, os₂, hs₁', hr₂, -⟩ := run_cons.1 hr₂
  cases hs₁.symm.trans hs₁'
  exact ⟨s₁, os₁, s₂, o, s₃, os₂, s₄, o', hr₁, hs₁, hr₂, hs₃, ho, ho'⟩

/-- **Invariant rule**: a property that the steps of some kind keep, and a run of that kind. -/
theorem run_inv_of {I : σ → Prop} {A : ι → Prop} (hstep : ∀ s i s' o, I s → A i → M.step s i = .ok (s', o) → I s')
    {is : List ι} {s t : σ} {os : List ω} (h : I s) (hA : ∀ i ∈ is, A i) (hr : M.run s is = .ok (t, os)) : I t := by
  induction is generalizing s os with
  | nil => cases hr; exact h
  | cons i is ih =>
    obtain ⟨s', o, os', hs, hr', -⟩ := run_cons.1 hr
    obtain ⟨hi, his⟩ := List.forall_mem_cons.1 hA
    exact ih (hstep s i s' o h hi hs) his hr'

/-- A property that every step keeps. -/
theorem run_inv {I : σ → Prop} (hstep : ∀ s i s' o, I s → M.step s i = .ok (s', o) → I s')
    {is : List ι} {s t : σ} {os : List ω} (h : I s) (hr : M.run s is = .ok (t, os)) : I t :=
  run_inv_of (A := fun _ => True) (fun s i s' o hs _ => hstep s i s' o hs) h (fun _ _ => trivial) hr

/-- **History rule**: a property of the inputs so far, the state they led to and the
outputs they gave. -/
theorem run_history {I : List ι → σ → List ω → Prop} {s₀ : σ} (h0 : I [] s₀ [])
    (hstep : ∀ is s os i s' o, M.run s₀ is = .ok (s, os) → I is s os → M.step s i = .ok (s', o) →
      I (is ++ [i]) s' (os ++ [o])) :
    ∀ {is : List ι} {t : σ} {os : List ω}, M.run s₀ is = .ok (t, os) → I is t os := by
  intro is
  induction is using List.reverseRecOn with
  | nil => intro t os h; cases h; exact h0
  | append_singleton is i ih =>
    intro t os h
    obtain ⟨s, os', o, hr, hs, rfl⟩ := run_concat.1 h
    exact hstep is s os' i t o hr (ih hr) hs

/-- **Progress rule**: inputs that every invariant state accepts never stop the run. -/
theorem run_total {I : σ → Prop} {A : ι → Prop}
    (hstep : ∀ s i, I s → A i → ∃ s' o, M.step s i = .ok (s', o) ∧ I s') {is : List ι} {s : σ} (h : I s)
    (hA : ∀ i ∈ is, A i) : ∃ t os, M.run s is = .ok (t, os) ∧ I t := by
  induction is generalizing s with
  | nil => exact ⟨s, [], rfl, h⟩
  | cons i is ih =>
    obtain ⟨s', o, hs, h'⟩ := hstep s i h (hA i (by simp))
    obtain ⟨t, os, hr, ht⟩ := ih h' fun j hj => hA j (List.mem_cons_of_mem i hj)
    exact ⟨t, o :: os, run_cons.2 ⟨s', o, os, hs, hr, rfl⟩, ht⟩

/-- **Simulation rule**: a machine that follows each step of another follows its runs. -/
theorem run_simulates {τ ε' : Type} {N : Machine τ ι ω ε'} {R : σ → τ → Prop}
    (hstep : ∀ s t i t' o, R s t → N.step t i = .ok (t', o) → ∃ s', M.step s i = .ok (s', o) ∧ R s' t')
    {is : List ι} {s : σ} {t t' : τ} {os : List ω} (h : R s t) (hr : N.run t is = .ok (t', os)) :
    ∃ s', M.run s is = .ok (s', os) ∧ R s' t' := by
  induction is generalizing s t os with
  | nil => cases hr; exact ⟨s, rfl, h⟩
  | cons i is ih =>
    obtain ⟨t₁, o, os₁, ht, hr₁, rfl⟩ := run_cons.1 hr
    obtain ⟨s₁, hs, h₁⟩ := hstep s t i t₁ o h ht
    obtain ⟨s', hrun, h'⟩ := ih h₁ hr₁
    exact ⟨s', run_cons.2 ⟨s₁, o, os₁, hs, hrun, rfl⟩, h'⟩

/-! ## Conditions on the steps of a run -/

variable (M)

/-- Every state of the run has the property. -/
def Always (P : σ → Prop) (s₀ : σ) (is : List ι) : Prop :=
  ∀ k s os, M.run s₀ (is.take k) = .ok (s, os) → P s

/-- Some state of the run has the property. -/
def Ever (P : σ → Prop) (s₀ : σ) (is : List ι) : Prop :=
  ∃ k s os, M.run s₀ (is.take k) = .ok (s, os) ∧ P s

/-- No step of the run is of the kind `B`. -/
def Never (B : σ → ι → Prop) (s₀ : σ) (is : List ι) : Prop :=
  ∀ k i s os, is[k]? = some i → M.run s₀ (is.take k) = .ok (s, os) → ¬ B s i

variable {M}

theorem Ever.concat {P : σ → Prop} {s₀ : σ} {is : List ι} (h : M.Ever P s₀ is) (i : ι) : M.Ever P s₀ (is ++ [i]) := by
  obtain ⟨k, s, os, hr, hp⟩ := h
  refine ⟨min k is.length, s, os, ?_, hp⟩
  rw [List.take_append_of_le_length (Nat.min_le_right _ _), ← List.take_eq_take_min]
  exact hr

theorem ever_last {P : σ → Prop} {s₀ t : σ} {is : List ι} {os : List ω} (hr : M.run s₀ is = .ok (t, os)) (hp : P t)
    (i : ι) : M.Ever P s₀ (is ++ [i]) :=
  ⟨is.length, t, os, by rw [List.take_left]; exact hr, hp⟩

/-- What steps of the right kind keep holds in every state of a run of them. -/
theorem always_of_never {I : σ → Prop} {B : σ → ι → Prop}
    (hstep : ∀ s i s' o, I s → ¬ B s i → M.step s i = .ok (s', o) → I s') {is : List ι} {s₀ : σ}
    (h0 : I s₀) (hn : M.Never B s₀ is) : M.Always I s₀ is := by
  induction is generalizing s₀ with
  | nil =>
    intro k s os hr
    rw [List.take_nil] at hr
    cases hr
    exact h0
  | cons i is ih =>
    intro k s os hr
    cases k with
    | zero =>
      cases hr
      exact h0
    | succ k =>
      rw [List.take_succ_cons] at hr
      obtain ⟨s₁, o, os₁, hs, hr₁, -⟩ := run_cons.1 hr
      have h1 := hstep s₀ i s₁ o h0 (hn 0 i s₀ [] rfl rfl) hs
      refine ih h1 ?_ k s os₁ hr₁
      intro j i' s' os' hj hr'
      exact hn (j + 1) i' s' (o :: os') hj (run_cons.2 ⟨s₁, o, os', hs, hr', rfl⟩)

/-- A mark that steps keep, or else break `P`, is still there at the end of a run that keeps `P`. -/
theorem mark_of_always {I J P : σ → Prop} (hI : ∀ s i s' o, I s → M.step s i = .ok (s', o) → I s')
    (hJ : ∀ s i s' o, I s → J s → M.step s i = .ok (s', o) → J s' ∨ ¬ P s') {is : List ι} {s₀ t : σ}
    {os : List ω} (h0 : I s₀) (hj : J s₀) (hr : M.run s₀ is = .ok (t, os)) (ha : M.Always P s₀ is) : J t := by
  induction is generalizing s₀ os with
  | nil =>
    cases hr
    exact hj
  | cons i is ih =>
    obtain ⟨s₁, o, os₁, hs, hr₁, -⟩ := run_cons.1 hr
    have hP : P s₁ := ha 1 s₁ [o] (run_cons.2 ⟨s₁, o, [], hs, rfl, rfl⟩)
    have hj₁ := (hJ s₀ i s₁ o h0 hj hs).resolve_right (not_not.2 hP)
    refine ih (hI s₀ i s₁ o h0 hs) hj₁ hr₁ ?_
    intro k s os' hr'
    exact ha (k + 1) s (o :: os') (run_cons.2 ⟨s₁, o, os', hs, hr', rfl⟩)

/-- If a step of the wrong kind leaves such a mark, a run that ends without it had no such step. -/
theorem never_of_always {I J P : σ → Prop} {B : σ → ι → Prop}
    (hI : ∀ s i s' o, I s → M.step s i = .ok (s', o) → I s')
    (hB : ∀ s i s' o, I s → B s i → M.step s i = .ok (s', o) → J s')
    (hJ : ∀ s i s' o, I s → J s → M.step s i = .ok (s', o) → J s' ∨ ¬ P s')
    {is : List ι} {s₀ t : σ} {os : List ω} (h0 : I s₀) (hr : M.run s₀ is = .ok (t, os)) (ht : ¬ J t)
    (ha : M.Always P s₀ is) : M.Never B s₀ is := by
  intro k i s os₁ hk hr₁ hb
  obtain ⟨hlt, hik⟩ := List.getElem?_eq_some_iff.1 hk
  have hsplit : is.take k ++ ([i] ++ is.drop (k + 1)) = is := by
    rw [← hik, List.singleton_append, List.getElem_cons_drop, List.take_append_drop]
  rw [← hsplit] at hr ha
  obtain ⟨s', os₁', _, h1, h2, -⟩ := run_append.1 hr
  rw [h1] at hr₁
  cases hr₁
  obtain ⟨s₂, o, os₂, hs, hr₂, -⟩ := run_cons.1 h2
  have hIs : I s := run_inv hI h0 h1
  refine ht (mark_of_always hI hJ (hI _ _ _ _ hIs hs) (hB _ _ _ _ hIs hb hs) hr₂ ?_)
  intro j u osu hu
  have hlen : (is.take k).length = k := by
    rw [List.length_take]
    omega
  refine ha (k + (j + 1)) u (os₁ ++ (o :: osu)) ?_
  rw [List.take_append, List.take_of_length_le (by omega), hlen, Nat.add_sub_cancel_left]
  exact run_append.2 ⟨s, os₁, o :: osu, h1, run_cons.2 ⟨s₂, o, osu, hs, hu, rfl⟩, rfl⟩

/-! ## Progress -/

variable (M)

/-- How many steps of the run are of the kind `A`. -/
def tally (A : σ → ι → Bool) : σ → List ι → Nat
  | _, [] => 0
  | s, i :: is => match M.step s i with
    | .ok (s', _) => (A s i).toNat + tally A s' is
    | .error _ => 0

variable {M}

/-- A kind that only depends on the input is counted in the list of inputs. -/
theorem tally_eq_countP {I : σ → Prop} (hI : ∀ s i, I s → ∃ s' o, M.step s i = .ok (s', o) ∧ I s') (p : ι → Bool)
    {is : List ι} {s : σ} (hs : I s) : M.tally (fun _ i => p i) s is = is.countP p := by
  induction is generalizing s with
  | nil => rfl
  | cons i is ih =>
    obtain ⟨s', o, hstep, hs'⟩ := hI s i hs
    simp only [tally, hstep, ih hs', List.countP_cons]
    cases p i <;> simp [Nat.add_comm]

/-- **Termination rule**: `W s k` says that at most `k` steps of the kind `A` are missing before the first
one that `F` holds after. A step of that kind makes it fewer, the others make it no more, so a run with
enough of them gets there. -/
theorem run_reaches {I : σ → Prop} {F : σ → ω → Prop} {A : σ → ι → Bool} {W : σ → Nat → Prop}
    (hI : ∀ s i, I s → ∃ s' o, M.step s i = .ok (s', o) ∧ I s')
    (hW : ∀ s i s' o k, I s → W s k → M.step s i = .ok (s', o) → F s' o ∨ ∃ k', k' + (A s i).toNat ≤ k ∧ W s' k')
    {is : List ι} {s : σ} {k : Nat} (hs : I s) (hk : W s k) (hlt : k < M.tally A s is) :
    ∃ j t os o, M.run s (is.take j) = .ok (t, os ++ [o]) ∧ F t o ∧ ∀ p ∈ os, ∃ u, ¬ F u p := by
  induction is generalizing s k with
  | nil => exact absurd hlt (Nat.not_lt_zero k)
  | cons i is ih =>
    obtain ⟨s', o, hstep, hs'⟩ := hI s i hs
    by_cases hf : F s' o
    · exact ⟨1, s', [], o, run_cons.2 ⟨s', o, [], hstep, rfl, rfl⟩, hf, fun p hp => absurd hp List.not_mem_nil⟩
    · obtain ⟨k', hle, hk'⟩ := (hW s i s' o k hs hk hstep).resolve_left hf
      simp only [tally, hstep] at hlt
      obtain ⟨j, t, os, o', hr, hf', hos⟩ := ih hs' hk' (by omega)
      refine ⟨j + 1, t, o :: os, o', run_cons.2 ⟨s', o, os ++ [o'], hstep, hr, rfl⟩, hf', ?_⟩
      intro p hp
      rcases List.mem_cons.1 hp with rfl | hp
      · exact ⟨s', hf⟩
      · exact hos p hp

end Machine
