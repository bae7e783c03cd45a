import NuttyNios.JtagRun
/-!
# From the call to the return

A call is followed from its first statement to its last through whatever interrupts it. Of what happens in
between only `Elsewhere` matters to it: the other ends of the two buffers have moved on. `call_ends` is for
what a call returns and `call_returns` for that it does.
-/

namespace NuttyNios
open Buffer RingBuffer

namespace Jtag

/-- A call has returned. -/
def Out.isReturn : Out → Bool
  | .read _ | .wrote _ _ => true
  | _ => false

/-- A statement of the caller. -/
def caller (s : Jtag) (e : Step) : Bool := s.isr.isNone && decide (e = .cpu)

/-- What the interrupt routine does to the buffers of a call: it puts bytes into the one and takes bytes
out of the other. -/
structure Elsewhere (s s' : Jtag) : Prop where
  task : s'.task = s.task
  rxOut : s'.rx.out = s.rx.out
  rxContents : s.rx.contents <+: s'.rx.contents
  txCount : s'.tx.count ≤ s.tx.count

theorem Elsewhere.same {s s' : Jtag} (ht : s'.task = s.task) (hrx : s'.rx = s.rx) (htx : s'.tx = s.tx) :
    Elsewhere s s' := ⟨ht, by rw [hrx], by rw [hrx], by rw [htx]⟩

theorem isrStep_elsewhere {s s' : Jtag} {pc : IsrPc} (hr : RxInv s) (hi : s.isr = some pc)
    (hs : s.isrStep pc = .ok s') : Elsewhere s s' := by
  have hroom := hr.room
  rw [hi] at hroom
  cases pc with
  | rxData control =>
    simp only [isrStep] at hs
    split at hs
    · cases hs
      exact .same rfl rfl rfl
    · obtain ⟨rx, hput, -, hout, hc⟩ := s.rx.push hroom (.ofBitVec ((s.uart.dataWord &&& DATA_DATA_MSK).setWidth 8))
      rw [hput] at hs
      cases hs
      exact ⟨rfl, hout, ⟨_, hc.symm⟩, Nat.le_refl _⟩
  | txLoop space =>
    simp only [isrStep] at hs
    split at hs
    · next hgo =>
      have hcount : 1 ≤ s.tx.count := by
        rw [← length_contents]
        exact List.length_pos_iff.2 fun hnil => hgo.2 ((contents_eq_nil_iff s.tx).1 hnil).symm
      cases hg : s.tx.get s.tx.out with
      | error e => rw [hg] at hs; cases hs
      | ok c =>
        rw [hg] at hs
        cases hs
        refine ⟨rfl, rfl, List.prefix_refl _, ?_⟩
        show (s.tx.setOut (s.tx.out + 1)).count ≤ s.tx.count
        rw [count_setOut s.tx hcount]
        exact Nat.sub_le _ _
    · cases hs
      exact .same rfl rfl rfl
  | rxPop control | timeoutClear =>
    cases hs
    exact .same rfl rfl rfl
  | _ =>
    simp only [isrStep] at hs
    split_ifs at hs <;> cases hs <;> exact .same rfl rfl rfl

/-- While a call is under way, only its own statements do anything else. -/
theorem step_elsewhere {s s' : Jtag} {e : Step} {o : Out} (hr : RxInv s) (ht : s.task ≠ .idle)
    (hc : s.caller e = false) (hs : s.step e = .ok (s', o)) :
    Elsewhere s s' ∧ o.isReturn = false := by
  cases e with
  | cpu =>
    simp only [step] at hs
    split at hs
    · next pc hi =>
      cases hp : s.isrStep pc with
      | error e => rw [hp] at hs; cases hs
      | ok s₁ =>
        rw [hp] at hs
        cases hs
        exact ⟨isrStep_elsewhere hr hi hp, rfl⟩
    · next hi =>
      simp only [caller, hi] at hc
      cases hc
  | irq =>
    simp only [step] at hs
    split at hs
    · cases hs
      exact ⟨.same rfl rfl rfl, rfl⟩
    · split at hs <;> cases hs <;> exact ⟨.same rfl rfl rfl, rfl⟩
  | tick =>
    simp only [step] at hs
    split at hs <;> cases hs <;> exact ⟨.same rfl rfl rfl, rfl⟩
  | read space nonblock | write data nonblock =>
    simp only [step] at hs
    split at hs
    · next ht' => exact absurd ht' ht
    · cases hs
      exact ⟨.same rfl rfl rfl, rfl⟩
  | hostSend c =>
    cases hs
    refine ⟨.same rfl rfl rfl, ?_⟩
    split <;> rfl
  | hostTake =>
    cases hs
    refine ⟨.same rfl rfl rfl, ?_⟩
    split <;> rfl
  | hostPause | clock =>
    cases hs
    exact ⟨.same rfl rfl rfl, rfl⟩

/-- What holds after the first step of a call and is kept by the others, up to the one that returns. -/
theorem call_inv {s t : Jtag} {e₀ : Step} {es : List Step} {os : List Out} {P : List Step → Jtag → Prop} (h : Inv s)
    (hfirst : ∀ t o, s.step e₀ = .ok (t, o) → P [e₀] t)
    (hstep : ∀ es u os e t o, jtagUart.run s es = .ok (u, os) → Inv u → P es u → u.step e = .ok (t, o) →
      o.isReturn = false → P (es ++ [e]) t)
    (hr : jtagUart.run s (e₀ :: es) = .ok (t, os)) (hos : ∀ o ∈ os, o.isReturn = false) : Inv t ∧ P (e₀ :: es) t := by
  induction es using List.reverseRecOn generalizing t os with
  | nil =>
    obtain ⟨s', o, os', hs, hru, -⟩ := Machine.run_cons.1 hr
    cases hru
    exact ⟨step_inv h hs, hfirst t o hs⟩
  | append_singleton es e ih =>
    rw [← List.cons_append] at hr
    obtain ⟨u, os', o, hru, hs, rfl⟩ := Machine.run_concat.1 hr
    obtain ⟨hu, hp⟩ := ih hru fun p hp => hos p (List.mem_append_left _ hp)
    exact ⟨step_inv hu hs, hstep _ u os' e t o hru hu hp hs
      (hos o (List.mem_append_right _ (List.mem_singleton_self o)))⟩

/-- What a call returns, from what holds before the step that returns. -/
theorem call_ends {s t : Jtag} {e₀ : Step} {es : List Step} {os : List Out} {o : Out} {P : List Step → Jtag → Prop}
    {R : List Step → Jtag → Out → Prop} (h : Inv s)
    (hfirst : ∀ t o, s.step e₀ = .ok (t, o) → o.isReturn = false ∧ P [e₀] t)
    (hstep : ∀ es u os e t o, jtagUart.run s es = .ok (u, os) → Inv u → P es u → u.step e = .ok (t, o) →
      o.isReturn = false ∧ P (es ++ [e]) t ∨ o.isReturn = true ∧ R (es ++ [e]) t o)
    (hr : jtagUart.run s (e₀ :: es) = .ok (t, os ++ [o])) (hos : ∀ p ∈ os, p.isReturn = false)
    (ho : o.isReturn = true) : R (e₀ :: es) t o := by
  rcases List.eq_nil_or_concat es with rfl | ⟨es₁, e, rfl⟩
  · obtain ⟨u, o', os', hs, hru, hoo⟩ := Machine.run_cons.1 hr
    cases hru
    have hoo' : os ++ [o] = [] ++ [o'] := hoo
    obtain ⟨-, ho'⟩ := List.append_inj' hoo' rfl
    cases ho'
    rw [(hfirst t o hs).1] at ho
    cases ho
  · rw [List.concat_eq_append, ← List.cons_append] at hr ⊢
    obtain ⟨u, os', o', hru, hs, hoo⟩ := Machine.run_concat.1 hr
    obtain ⟨rfl, ho'⟩ := List.append_inj' hoo rfl
    cases ho'
    obtain ⟨hu, hp⟩ := call_inv h (fun t o hs => (hfirst t o hs).2) (fun es u os e t o hru hu hp hs hret =>
      ((hstep es u os e t o hru hu hp hs).resolve_right fun hr => Bool.noConfusion (hret.symm.trans hr.1)).2) hru hos
    rcases hstep _ u os e t o hru hu hp hs with ⟨hret, -⟩ | ⟨-, hR⟩
    · rw [hret] at ho
      cases ho
    · exact hR

/-- A call with `k` statements of its own left returns after so many of them. -/
theorem call_returns {s : Jtag} {e₀ : Step} {es : List Step} {k : Nat} {W : Jtag → Nat → Prop} (h : Inv s)
    (hcall : s.caller e₀ = false) (hfirst : ∀ t o, s.step e₀ = .ok (t, o) → o.isReturn = false ∧ W t k)
    (hstep : ∀ u e t o k, Inv u → W u k → u.step e = .ok (t, o) →
      o.isReturn = true ∨ ∃ k', k' + (u.caller e).toNat ≤ k ∧ W t k')
    (hlt : k < jtagUart.tally caller s (e₀ :: es)) :
    ∃ j t os o, jtagUart.run s (e₀ :: es.take j) = .ok (t, os ++ [o]) ∧ (∀ p ∈ os, p.isReturn = false) ∧
      o.isReturn = true := by
  obtain ⟨s₁, o₁, hs₁, hinv₁⟩ := step_total s e₀ h
  obtain ⟨ho₁, hw⟩ := hfirst s₁ o₁ hs₁
  simp only [Machine.tally, hs₁, hcall, Bool.toNat_false, Nat.zero_add] at hlt
  obtain ⟨j, t, os, o, hru, ho, hos⟩ := Machine.run_reaches (M := jtagUart) (F := fun _ o => o.isReturn = true)
    step_total hstep hinv₁ hw hlt
  refine ⟨j, t, o₁ :: os, o, Machine.run_cons.2 ⟨s₁, o₁, os ++ [o], hs₁, hru, rfl⟩, ?_, ho⟩
  intro p hp
  rcases List.mem_cons.1 hp with rfl | hp
  · exact ho₁
  · obtain ⟨-, hne⟩ := hos p hp
    exact Bool.eq_false_iff.2 hne

theorem caller_iff {s : Jtag} {e : Step} : s.caller e = true ↔ s.isr = none ∧ e = .cpu := by
  simp only [caller, Bool.and_eq_true, Option.isNone_iff_eq_none, decide_eq_true_eq]

/-- The driver takes the host to be gone. -/
def hostGone (s : Jtag) : Prop := s.timeout ≤ s.hostInactive

/-- The driver has not seen the host since the alarm last went off. -/
def hostQuiet (s : Jtag) : Prop := s.hostInactive ≠ 0

end Jtag
end NuttyNios
