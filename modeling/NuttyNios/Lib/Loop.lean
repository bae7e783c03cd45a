import Mathlib
/-!
# Counted loops

`forUpTo n body s` is the C loop `for (int i = 0; i < n; i++) body(i)` run on a state `s`.
The bound is known, so the recursion is on it and the index comes typed as `Fin n`: an
array of length `n` read at that index needs no bounds check.
-/

namespace Loop

variable {σ : Type}

/-- `for (i = 0; i < n; i++) s = body(i, s)`. -/
def forUpTo : (n : Nat) → (Fin n → σ → σ) → σ → σ
  | 0, _, s => s
  | n + 1, body, s => body (Fin.last n) (forUpTo n (fun i => body i.castSucc) s)

@[simp] theorem forUpTo_zero (body : Fin 0 → σ → σ) (s : σ) : forUpTo 0 body s = s := rfl

theorem forUpTo_succ (n : Nat) (body : Fin (n + 1) → σ → σ) (s : σ) :
    forUpTo (n + 1) body s = body (Fin.last n) (forUpTo n (fun i => body i.castSucc) s) := rfl

/-- **The loop rule**: what holds before the loop and is carried by the body from `i` to
`i + 1` holds, at `n`, after the loop. -/
theorem forUpTo_inv {n : Nat} {body : Fin n → σ → σ} {s : σ} (I : Nat → σ → Prop) (h0 : I 0 s)
    (hstep : ∀ (i : Fin n) t, I i t → I (i + 1) (body i t)) : I n (forUpTo n body s) := by
  induction n with
  | zero => exact h0
  | succ n ih =>
    have hn := ih fun i t => hstep i.castSucc t
    exact hstep (Fin.last n) _ hn

/-- **Simulation**: a loop seen through `f` is the loop of the bodies seen through `f`. -/
theorem forUpTo_hom {τ : Type} {n : Nat} {body : Fin n → σ → σ} {body' : Fin n → τ → τ} (f : σ → τ)
    (h : ∀ i s, f (body i s) = body' i (f s)) (s : σ) : f (forUpTo n body s) = forUpTo n body' (f s) := by
  induction n with
  | zero => rfl
  | succ n ih => rw [forUpTo_succ, forUpTo_succ, h, ih fun i => h i.castSucc]

/-- An accumulator loop adds up its terms. -/
theorem forUpTo_add {R : Type} [AddCommMonoid R] {n : Nat} (f : Fin n → R) (a : R) :
    forUpTo n (fun i acc => acc + f i) a = a + ∑ i, f i := by
  induction n with
  | zero => simp
  | succ n ih => rw [forUpTo_succ, ih fun i => f i.castSucc, Fin.sum_univ_castSucc, add_assoc]

/-- A loop whose body can stop on an error. -/
def forUpToM {ε : Type} : (n : Nat) → (Fin n → σ → Except ε σ) → σ → Except ε σ
  | 0, _, s => .ok s
  | n + 1, body, s => do
    let s ← forUpToM n (fun i => body i.castSucc) s
    body (Fin.last n) s

/-- **The loop rule** when no round stops: the body carries the invariant and never fails. -/
theorem forUpToM_inv {ε : Type} {n : Nat} {body : Fin n → σ → Except ε σ} {s : σ} (I : Nat → σ → Prop) (h0 : I 0 s)
    (hstep : ∀ (i : Fin n) t, I i t → ∃ t', body i t = .ok t' ∧ I (i + 1) t') :
    ∃ t, forUpToM n body s = .ok t ∧ I n t := by
  induction n with
  | zero => exact ⟨s, rfl, h0⟩
  | succ n ih =>
    obtain ⟨t, ht, hn⟩ := ih fun i t => hstep i.castSucc t
    obtain ⟨t', ht', hlast⟩ := hstep (Fin.last n) t hn
    refine ⟨t', ?_, hlast⟩
    rw [forUpToM, ht]
    exact ht'

end Loop
