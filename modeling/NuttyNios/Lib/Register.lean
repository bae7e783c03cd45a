import NuttyNios.Lib.Machine
/-!
# Registers: the last write wins

A history of events, some of which write a register. `latest` is what the register holds after the
history, `last` the last event of a kind. `latest_eq_if` reads a two-valued register off the last
event that writes it, and `Machine.run_latest` is the rule for a component of a machine's state.
-/

namespace Register

variable {ι α : Type}

/-- The last value written, `init` before the first write. -/
def latest (writes : ι → Option α) (init : α) (history : List ι) : α :=
  (history.filterMap writes).getLast?.getD init

/-- The last event of a kind. -/
def last (kind : ι → Bool) (history : List ι) : Option ι := (history.filter kind).getLast?

theorem latest_concat (writes : ι → Option α) (init : α) (history : List ι) (i : ι) :
    latest writes init (history ++ [i]) = (writes i).getD (latest writes init history) := by
  unfold latest
  rw [List.filterMap_append]
  cases h : writes i <;> simp [h]

theorem last_concat (kind : ι → Bool) (history : List ι) (i : ι) :
    last kind (history ++ [i]) = if kind i then some i else last kind history := by
  unfold last
  rw [List.filter_append]
  cases h : kind i <;> simp [h]

/-- A register whose writers of a kind set it to one of two values holds what the last of them set. -/
theorem latest_eq_if {writes : ι → Option α} {kind sets : ι → Bool} {a init : α}
    (h : ∀ i, writes i = if kind i then some (if sets i then a else init) else none) (history : List ι) :
    latest writes init history = if (last kind history).any sets then a else init := by
  induction history using List.reverseRecOn with
  | nil => rfl
  | append_singleton history i ih =>
    rw [latest_concat, last_concat, h, ih]
    cases kind i <;> simp

end Register

/-- **Register rule**: a component of the state that each step either writes or leaves holds the last
value written. -/
theorem Machine.run_latest {σ ι ω ε α : Type} {M : Machine σ ι ω ε} {s₀ : σ} (reg : σ → α)
    (writes : ι → Option α)
    (hstep : ∀ is s os i s' o, M.run s₀ is = .ok (s, os) → M.step s i = .ok (s', o) →
      reg s' = (writes i).getD (reg s)) {is : List ι} {t : σ} {os : List ω}
    (hr : M.run s₀ is = .ok (t, os)) : reg t = Register.latest writes (reg s₀) is := by
  refine run_history (I := fun is s _ => reg s = Register.latest writes (reg s₀) is) rfl ?_ hr
  intro is s os i s' o hrun ih hs
  rw [Register.latest_concat, hstep is s os i s' o hrun hs, ih]
