import NuttyNios.Lib.Handshake
import NuttyNios.Main
/-!
# The sample interrupt (main.c:179-185, 314-336)

The loop and `get_accler_isr` share `coords` and `coord_data_ready`, and `Main.handshake` shows the
two as a `Handshake`: a statement is a step of its consumer (`stmt_next`), the interrupt a store of
its producer. From there:

* `passes_whole_iff`: the three filters are given one sample in every iteration as long as no
  interrupt comes between the first and the last filter call;
* `sample_kept_iff`: no sample is lost as long as no interrupt comes between the first filter call
  and the statement that clears the flag, which is most of the loop.

Both conditions are also necessary, and neither is guarded by the code.
-/

namespace NuttyNios
open Buffer Handshake

def Pc.phase : Pc → Phase
  | .read => .top
  | .recv _ | .handle | .test => .poll
  | .filterX => .first
  | .filterY => .second
  | .filterZ => .third
  | _ => .busy

def Pass.round (p : Pass) : Round := ⟨p.x.isr, p.y.isr, p.z.isr⟩

/-- What the loop and the interrupt share, as a handshake. -/
def Main.handshake (s : Main) : State :=
  ⟨s.pc.phase, s.isrs, s.coordDataReady, s.passX.isr, s.passY.isr, s.passes.map Pass.round⟩

/-- `coords` is always of the last interrupt: it is stored in one step. -/
def Main.Stored (s : Main) : Prop := ∀ i, (s.coords.get i).isr = s.isrs

theorem getAcclerIsr_stored (x y z : BitVec 32) (s : Main) : (s.getAcclerIsr x y z).Stored := by
  intro i
  fin_cases i <;> rfl

theorem getAcclerIsr_handshake (x y z : BitVec 32) (s : Main) :
    (s.getAcclerIsr x y z).handshake = s.handshake.store := rfl

/-- **A statement is a step of the consumer.** -/
theorem stmt_next {decode : UInt8 → UInt8} {s s' : Main} {acts : List Action} {env : Env} (h : s.Stored)
    (hs : s.stmt decode env = .ok (s', acts)) : Next s.handshake s'.handshake ∧ s'.Stored := by
  obtain ⟨pc, rx, now, coords, ready, isrs, passX, passY, passes⟩ := s
  cases pc with
  | read =>
    cases hs
    exact ⟨.leave rfl, h⟩
  | recv left =>
    cases left with
    | nil =>
      cases hs
      exact ⟨.work, h⟩
    | cons c left =>
      obtain ⟨rx', -, rfl, -⟩ := stmt_recv rfl hs
      exact ⟨.work, h⟩
  | handle =>
    obtain ⟨-, globals, -, rfl⟩ | ⟨-, rfl, -⟩ := stmt_handle rfl hs
    · exact ⟨.work, h⟩
    · exact ⟨.work, h⟩
  | test =>
    cases hs
    cases ready with
    | true => exact ⟨.enter rfl rfl, h⟩
    | false => exact ⟨.again rfl rfl, h⟩
  | filterX =>
    cases hs
    have h0 : (coords.get 0).isr = isrs := h 0
    refine ⟨?_, h⟩
    unfold Main.handshake
    rw [h0]
    exact .first rfl
  | filterY =>
    cases hs
    have h1 : (coords.get 1).isr = isrs := h 1
    refine ⟨?_, h⟩
    unfold Main.handshake
    rw [h1]
    exact .second rfl
  | filterZ =>
    cases hs
    have h2 : (coords.get 2).isr = isrs := h 2
    refine ⟨?_, h⟩
    unfold Main.handshake
    rw [List.map_append, List.map_singleton, Pass.round, h2]
    exact .third rfl
  | print =>
    simp only [Main.stmt, printSample_eq] at hs
    cases hs
    exact ⟨.work, h⟩
  | clear =>
    cases hs
    exact ⟨.clear rfl, h⟩
  | _ =>
    cases hs
    exact ⟨.work, h⟩

/-- What every run keeps, interrupts anywhere. -/
def Main.Sound (s : Main) : Prop := s.Stored ∧ Bounded s.handshake

theorem boot_sound (rx : Rx) : (Main.boot rx).Sound := by
  refine ⟨fun i => ?_, Nat.le_refl _, fun r hr => ?_⟩
  · fin_cases i <;> rfl
  · cases hr

theorem step_sound {decode : UInt8 → UInt8} : ∀ (s : Main) (i : Input) (s' : Main) (acts : List Action),
    s.Sound → (mainLoop decode).step s i = .ok (s', acts) → s'.Sound
  | s, .stmt env, s', acts, h, hs => by
    obtain ⟨hn, hst⟩ := stmt_next h.1 hs
    exact ⟨hst, h.2.next hn⟩
  | s, .isr x y z, s', acts, h, hs => by
    cases hs
    refine ⟨getAcclerIsr_stored x y z s, ?_⟩
    rw [getAcclerIsr_handshake]
    exact h.2.store

/-- An interrupt at a statement boundary of the kind `at_`. -/
def InterruptAt (at_ : Pc → Bool) (s : Main) : Input → Prop
  | .isr _ _ _ => at_ s.pc
  | .stmt _ => False

/-- A statement, with nothing to read and both ports at zero. -/
def Input.idle : Input := .stmt ⟨none, 0⟩

theorem never_isr_then_idle {at_ : Pc → Bool} (h : ¬ at_ .read) (n : Nat) :
    (mainLoop fun c => c).Never (InterruptAt at_) (Main.boot .zeroed) (.isr 0 0 0 :: List.replicate n .idle) := by
  intro k i s os hk hr hb
  cases k with
  | zero =>
    cases hk
    cases hr
    exact h hb
  | succ k =>
    obtain rfl : i = .idle := List.eq_of_mem_replicate (List.mem_of_getElem? hk)
    cases hb

/-- **Interrupts at a hazard.** Without one the property holds in every state of a run; and a run in
which it does, and which does not end at such a boundary, had none. -/
theorem interrupt_iff {bad : Phase → Bool} {I J K : State → Prop} (h : Hazard bad I J K) {at_ : Pc → Bool}
    {P : Main → Prop} (hat : ∀ s : Main, at_ s.pc = bad s.handshake.phase) (hP : ∀ s : Main, K s.handshake ↔ P s)
    {decode : UInt8 → UInt8} {rx : Rx} {inputs : List Input} {s : Main} {outs : List (List Action)}
    (h0 : I (Main.boot rx).handshake) (hr : (mainLoop decode).run (Main.boot rx) inputs = .ok (s, outs)) :
    ((mainLoop decode).Never (InterruptAt at_) (Main.boot rx) inputs →
      (mainLoop decode).Always P (Main.boot rx) inputs) ∧
    (¬ at_ s.pc → (mainLoop decode).Always P (Main.boot rx) inputs →
      (mainLoop decode).Never (InterruptAt at_) (Main.boot rx) inputs) := by
  constructor
  · intro hn k t os ht
    have hI := Machine.always_of_never (M := mainLoop decode) (I := fun t => t.Stored ∧ I t.handshake)
      (B := InterruptAt at_) ?_ ⟨(boot_sound rx).1, h0⟩ hn k t os ht
    · exact (hP t).1 (h.gives hI.2)
    · rintro t i t' acts ⟨hst, ht⟩ hb hs
      cases i with
      | stmt env =>
        obtain ⟨hnext, hst'⟩ := stmt_next hst hs
        exact ⟨hst', h.next ht hnext⟩
      | isr x y z =>
        cases hs
        refine ⟨getAcclerIsr_stored x y z t, ?_⟩
        rw [getAcclerIsr_handshake]
        exact h.store ht (by rw [← hat]; exact hb)
  · intro hpc
    refine Machine.never_of_always (I := Main.Sound) (J := fun t => J t.handshake) step_sound ?_ ?_
      (boot_sound rx) hr ?_
    · intro t i t' acts ht hb hs
      cases i with
      | stmt env => cases hb
      | isr x y z =>
        cases hs
        rw [getAcclerIsr_handshake]
        exact h.mark_of_store ht.2 (by rw [← hat]; exact hb)
    · intro t i t' acts ht hj hs
      cases i with
      | stmt env =>
        rw [← hP]
        exact h.mark_next hj ht.2 (stmt_next ht.1 hs).1
      | isr x y z =>
        cases hs
        rw [getAcclerIsr_handshake]
        exact .inl (h.mark_store hj)
    · intro hj
      exact hpc ((hat s).trans (h.mark_bad hj))

/-! ## Torn samples -/

/-- The boundaries between the first and the last filter call. -/
def Pc.tearing : Pc → Bool
  | .filterY | .filterZ => true
  | _ => false

/-- One interrupt stored all three coordinates the iteration passed on. -/
def Pass.Whole (p : Pass) : Prop := p.x.isr = p.y.isr ∧ p.y.isr = p.z.isr

theorem tearing_eq (s : Main) : s.pc.tearing = s.handshake.phase.taking := by
  unfold Main.handshake
  cases s.pc <;> rfl

theorem boot_steady (rx : Rx) : Steady (Main.boot rx).handshake := ⟨fun _ hr => (List.not_mem_nil hr).elim, trivial⟩

theorem whole_iff (s : Main) : Handshake.Whole s.handshake ↔ ∀ p ∈ s.passes, p.Whole :=
  List.forall_mem_map

/-- **No sample is torn exactly when no interrupt comes between the filter calls.** In a run without
such an interrupt every iteration passes one sample to the three filters; and a run that does so, and
does not end between the calls, had none. -/
theorem passes_whole_iff (decode : UInt8 → UInt8) (rx : Rx) (inputs : List Input) (s : Main)
    (outs : List (List Action)) (hr : (mainLoop decode).run (Main.boot rx) inputs = .ok (s, outs)) :
    ((mainLoop decode).Never (InterruptAt Pc.tearing) (Main.boot rx) inputs →
      (mainLoop decode).Always (fun t => ∀ p ∈ t.passes, p.Whole) (Main.boot rx) inputs) ∧
    (¬ s.pc.tearing → (mainLoop decode).Always (fun t => ∀ p ∈ t.passes, p.Whole) (Main.boot rx) inputs →
      (mainLoop decode).Never (InterruptAt Pc.tearing) (Main.boot rx) inputs) := by
  exact interrupt_iff whole_hazard tearing_eq whole_iff (boot_steady rx) hr

/-- One sample and one iteration, up to the last filter call. -/
theorem passes_whole_undisturbed : ∃ s outs,
    (mainLoop fun c => c).run (Main.boot .zeroed) (.isr 0 0 0 :: List.replicate 7 .idle) = .ok (s, outs) ∧
      s.passes.length = 1 ∧ ∀ p ∈ s.passes, p.Whole :=
  ⟨_, _, rfl, rfl, (passes_whole_iff (fun c => c) .zeroed (.isr 0 0 0 :: List.replicate 7 .idle) _ _ rfl).1
    (never_isr_then_idle (by decide) 7) 8 _ _ rfl⟩

/-- A second interrupt between the x and the y call: that iteration gives x of the first sample, y
and z of the second. -/
theorem passes_torn : ¬ ∀ s outs,
    (mainLoop fun c => c).run (Main.boot .zeroed)
      (.isr 0 0 0 :: List.replicate 5 .idle ++ .isr 0 0 0 :: List.replicate 2 .idle) = .ok (s, outs) →
    ∀ p ∈ s.passes, p.Whole := by
  intro h
  have hp := h _ _ rfl ⟨⟨0, 1⟩, ⟨0, 2⟩, ⟨0, 2⟩⟩ (List.mem_singleton.2 rfl)
  cases hp.1

/-! ## Lost samples -/

/-- The boundaries between the first filter call and the statement that clears the flag. -/
def Pc.losing : Pc → Bool
  | .filterY | .filterZ | .buttons | .switches | .print | .flush | .hex | .leds | .clear => true
  | _ => false

/-- At the top of the loop with the flag down, the newest sample has been given to all three filters. -/
def Main.Kept (s : Main) : Prop := s.pc = .read → s.coordDataReady = false → s.isrs = 0 ∨
  (∃ p ∈ s.passes, p.x.isr = s.isrs) ∧ (∃ p ∈ s.passes, p.y.isr = s.isrs) ∧ ∃ p ∈ s.passes, p.z.isr = s.isrs

theorem losing_eq (s : Main) : s.pc.losing = s.handshake.phase.serving := by
  unfold Main.handshake
  cases s.pc <;> rfl

theorem boot_fresh (rx : Rx) : Fresh (Main.boot rx).handshake := fun _ => .inl rfl

theorem kept_iff (s : Main) : Handshake.Kept s.handshake ↔ s.Kept := by
  have hpc : s.handshake.phase = .top ↔ s.pc = .read := by
    unfold Main.handshake
    cases s.pc <;> simp [Pc.phase]
  unfold Handshake.Kept Main.Kept Served
  rw [hpc]
  simp [Main.handshake, Pass.round]

/-- **No sample is lost exactly when no interrupt comes between the first filter call and the
clearing of the flag.** In a run without such an interrupt every state is `Kept`; and a run whose
states all are, and which does not end between the two, had none. -/
theorem sample_kept_iff (decode : UInt8 → UInt8) (rx : Rx) (inputs : List Input) (s : Main)
    (outs : List (List Action)) (hr : (mainLoop decode).run (Main.boot rx) inputs = .ok (s, outs)) :
    ((mainLoop decode).Never (InterruptAt Pc.losing) (Main.boot rx) inputs →
      (mainLoop decode).Always Main.Kept (Main.boot rx) inputs) ∧
    (¬ s.pc.losing → (mainLoop decode).Always Main.Kept (Main.boot rx) inputs →
      (mainLoop decode).Never (InterruptAt Pc.losing) (Main.boot rx) inputs) := by
  exact interrupt_iff kept_hazard losing_eq kept_iff (boot_fresh rx) hr

/-- One sample and one whole iteration. -/
theorem sample_kept_undisturbed : ∃ s outs,
    (mainLoop fun c => c).run (Main.boot .zeroed) (.isr 0 0 0 :: List.replicate 14 .idle) = .ok (s, outs) ∧
      s.pc = .read ∧ s.coordDataReady = false ∧ s.isrs = 1 ∧ s.Kept :=
  ⟨_, _, rfl, rfl, rfl, rfl, (sample_kept_iff (fun c => c) .zeroed (.isr 0 0 0 :: List.replicate 14 .idle) _ _ rfl).1
    (never_isr_then_idle (by decide) 14) 15 _ _ rfl⟩

/-- A second interrupt after the filter calls: the flag is cleared and the second sample is never
filtered. -/
theorem sample_lost : ¬ ∀ s outs,
    (mainLoop fun c => c).run (Main.boot .zeroed)
      (.isr 0 0 0 :: List.replicate 7 .idle ++ .isr 0 0 0 :: List.replicate 7 .idle) = .ok (s, outs) →
    s.Kept := by
  intro h
  rcases h _ _ rfl rfl rfl with h0 | ⟨⟨p, hp, he⟩, -⟩
  · cases h0
  · rw [List.mem_singleton.1 hp] at he
    cases he

end NuttyNios
