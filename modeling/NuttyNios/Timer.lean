import Mathlib
/-!
# The timer (nios2system/synthesis/submodules/nios2system_timer0.v)

| here | there |
| --- | --- |
| `Timer`      | the registers, without the snapshot, which nothing reads |
| `clock`      | a clock edge, with the write on the bus, if there is one |
| `event`      | `timeout_event` |
| `irq`        | `irq` |

A timer that runs freely, and counts from more than 0, has a timeout every `counter_load_value + 1` clocks
(`events_free`). One that is started and loaded has no more than that (`AtLeast.clock`).
-/

namespace NuttyNios

def TIMER_STATUS_REG : BitVec 3 := 0#3
def TIMER_CONTROL_REG : BitVec 3 := 1#3
def TIMER_PERIODL_REG : BitVec 3 := 2#3
def TIMER_PERIODH_REG : BitVec 3 := 3#3

structure Timer where
  internalCounter : BitVec 32
  counterIsRunning : Bool
  forceReload : Bool
  /-- `delayed_unxcounter_is_zeroxx0` -/
  delayed : Bool
  timeoutOccurred : Bool
  controlRegister : BitVec 4
  periodH : BitVec 16
  periodL : BitVec 16

/-- The address and the data of a write. -/
abbrev BusWrite := BitVec 3 × BitVec 16

namespace Timer

def reset : Timer where
  internalCounter := 0x9C3#32
  counterIsRunning := false
  forceReload := false
  delayed := false
  timeoutOccurred := false
  controlRegister := 0#4
  periodH := 0#16
  periodL := 2499#16

def counterIsZero (t : Timer) : Bool := t.internalCounter = 0#32

def counterLoadValue (t : Timer) : BitVec 32 := t.periodH ++ t.periodL

def controlContinuous (t : Timer) : Bool := t.controlRegister.getLsbD 1

def event (t : Timer) : Bool := t.counterIsZero && !t.delayed

def irq (t : Timer) : Bool := t.timeoutOccurred && t.controlRegister.getLsbD 0

/-- A write to a register. -/
def strobe (w : Option BusWrite) (address : BitVec 3) : Bool := w.any (·.1 = address)

def writedata (w : Option BusWrite) : BitVec 16 := (w.map Prod.snd).getD 0#16

def startStrobe (w : Option BusWrite) : Bool := (writedata w).getLsbD 2 && strobe w TIMER_CONTROL_REG

def stopStrobe (w : Option BusWrite) : Bool := (writedata w).getLsbD 3 && strobe w TIMER_CONTROL_REG

def clock (t : Timer) (w : Option BusWrite) : Timer where
  internalCounter :=
    if t.counterIsRunning || t.forceReload then
      if t.counterIsZero || t.forceReload then t.counterLoadValue else t.internalCounter - 1#32
    else t.internalCounter
  counterIsRunning :=
    if startStrobe w then true
    else if stopStrobe w || t.forceReload || (t.counterIsZero && !t.controlContinuous) then false
    else t.counterIsRunning
  forceReload := strobe w TIMER_PERIODH_REG || strobe w TIMER_PERIODL_REG
  delayed := t.counterIsZero
  timeoutOccurred := if strobe w TIMER_STATUS_REG then false else if t.event then true else t.timeoutOccurred
  controlRegister := if strobe w TIMER_CONTROL_REG then (writedata w).setWidth 4 else t.controlRegister
  periodH := if strobe w TIMER_PERIODH_REG then writedata w else t.periodH
  periodL := if strobe w TIMER_PERIODL_REG then writedata w else t.periodL

/-- How many of the clocks see a timeout. -/
def events : Timer → List (Option BusWrite) → Nat
  | _, [] => 0
  | t, w :: ws => t.event.toNat + events (t.clock w) ws

/-- Only a write takes the interrupt back. -/
theorem irq_clock {t : Timer} (h : t.irq = true) : (t.clock none).irq = true := by
  obtain ⟨ht, hc⟩ := Bool.and_eq_true_iff.1 h
  have hstatus : (t.clock none).timeoutOccurred = if t.event then true else t.timeoutOccurred := rfl
  refine Bool.and_eq_true_iff.2 ⟨?_, hc⟩
  rw [hstatus, ht, ite_self]

/-! ## A timer that runs freely -/

/-- It runs with a load value of `p`, without end. -/
structure Free (t : Timer) (p : Nat) : Prop where
  running : t.counterIsRunning = true
  reload : t.forceReload = false
  continuous : t.controlContinuous = true
  load : t.counterLoadValue.toNat = p
  counter : t.internalCounter.toNat ≤ p
  delayed : t.internalCounter = 0#32 → t.delayed = false

/-- The only register that is written is the status. -/
def StatusOnly (w : Option BusWrite) : Prop := ∀ x, w = some x → x.1 = TIMER_STATUS_REG

theorem statusOnly_none : StatusOnly none := fun x hx => by cases hx

theorem statusOnly_status (data : BitVec 16) : StatusOnly (some (TIMER_STATUS_REG, data)) :=
  fun x hx => by cases hx; rfl

theorem StatusOnly.strobe {w : Option BusWrite} (h : StatusOnly w) {a : BitVec 3} (ha : a ≠ TIMER_STATUS_REG) :
    strobe w a = false := by
  cases w with
  | none => rfl
  | some x =>
    have := h x rfl
    simp only [Timer.strobe, Option.any_some, decide_eq_false_iff_not]
    exact fun hxa => ha (hxa.symm.trans this)

theorem toNat_sub_one {x : BitVec 32} (h : x.toNat ≠ 0) : (x - 1#32).toNat = x.toNat - 1 := by
  have hle : 1#32 ≤ x := BitVec.le_def.2 (Nat.one_le_iff_ne_zero.2 h)
  rw [BitVec.toNat_sub_of_le hle]
  rfl

/-- The clocks since the last timeout, as many as there are to the next. -/
theorem Free.clock {t : Timer} {p : Nat} (h : Free t p) (hp : 0 < p) {w : Option BusWrite} (hw : StatusOnly w) :
    Free (t.clock w) p ∧ p - (t.clock w).internalCounter.toNat + (p + 1) * t.event.toNat =
      p - t.internalCounter.toNat + 1 := by
  have hcontrol := hw.strobe (a := TIMER_CONTROL_REG) (by decide)
  have hh := hw.strobe (a := TIMER_PERIODH_REG) (by decide)
  have hl := hw.strobe (a := TIMER_PERIODL_REG) (by decide)
  have hrunning : (t.clock w).counterIsRunning = true := by
    simp [Timer.clock, startStrobe, stopStrobe, hcontrol, h.reload, h.continuous, h.running]
  have hload : (t.clock w).counterLoadValue = t.counterLoadValue := by
    simp [Timer.clock, counterLoadValue, hh, hl]
  have hcontinuous : (t.clock w).controlContinuous = true := by
    simp only [Timer.clock, controlContinuous, hcontrol]
    exact h.continuous
  have hreload : (t.clock w).forceReload = false := by
    simp [Timer.clock, hh, hl]
  by_cases hz : t.internalCounter = 0#32
  · have hcounter : (t.clock w).internalCounter = t.counterLoadValue := by
      simp [Timer.clock, counterIsZero, hz, h.running]
    refine ⟨⟨hrunning, hreload, hcontinuous, (congrArg BitVec.toNat hload).trans h.load, ?_, ?_⟩, ?_⟩
    · rw [hcounter, h.load]
    · intro h0
      rw [hcounter] at h0
      rw [← h.load, h0] at hp
      exact absurd hp (by decide)
    · rw [hcounter, h.load, hz]
      simp [event, counterIsZero, hz, h.delayed hz]
  · have hcounter : (t.clock w).internalCounter = t.internalCounter - 1#32 := by
      simp [Timer.clock, counterIsZero, hz, h.running, h.reload]
    have hpos : t.internalCounter.toNat ≠ 0 := fun h0 => hz (BitVec.eq_of_toNat_eq h0)
    have hone := toNat_sub_one hpos
    have hle := h.counter
    refine ⟨⟨hrunning, hreload, hcontinuous, (congrArg BitVec.toNat hload).trans h.load, ?_, ?_⟩, ?_⟩
    · rw [hcounter, hone]
      omega
    · exact fun _ => decide_eq_false hz
    · rw [hcounter, hone]
      simp only [event, counterIsZero, hz, decide_false, Bool.false_and, Bool.toNat_false]
      omega

/-- **A timer that runs freely keeps time**: with a load value `p` that is not 0, from any state of its cycle it has
a timeout every `p + 1` clocks, whatever is written to the status register. With 0 the counter stays at 0, and there
is no timeout after the first. -/
theorem events_free {t : Timer} {p : Nat} (h : Free t p) (hp : 0 < p) {ws : List (Option BusWrite)}
    (hws : ∀ w ∈ ws, StatusOnly w) : t.events ws = (p - t.internalCounter.toNat + ws.length) / (p + 1) := by
  induction ws generalizing t with
  | nil =>
    rw [events, List.length_nil, Nat.add_zero, Nat.div_eq_of_lt]
    omega
  | cons w ws ih =>
    obtain ⟨hw, hws⟩ := List.forall_mem_cons.1 hws
    obtain ⟨hfree, hphase⟩ := h.clock hp hw
    have hpos : 0 < p + 1 := Nat.succ_pos p
    rw [events, ih hfree hws, List.length_cons, Nat.add_comm t.event.toNat, ← Nat.add_mul_div_left _ _ hpos]
    congr 1
    omega

theorem events_free_one : (⟨1#32, true, false, false, false, 7#4, 0#16, 2499#16⟩ : Timer).events
    [none, none, some (TIMER_STATUS_REG, 0#16)] = (2499 - 1 + 3) / (2499 + 1) := by
  refine events_free ⟨rfl, rfl, rfl, rfl, by decide, fun h => by cases h⟩ (by decide) ?_
  intro w hw
  simp only [List.mem_cons, List.not_mem_nil, or_false] at hw
  rcases hw with rfl | rfl | rfl
  · exact statusOnly_none
  · exact statusOnly_none
  · exact statusOnly_status _

/-! ## A timer that is used in any way -/

/-- Its load value, and its counter when it stands still, are at least `p`. -/
structure AtLeast (t : Timer) (p : Nat) : Prop where
  load : p ≤ t.counterLoadValue.toNat
  still : t.counterIsRunning = false → p ≤ t.internalCounter.toNat

/-- The clocks since the last timeout, as far as it has run. -/
def credit (t : Timer) (p : Nat) : Nat := if t.counterIsRunning then p - t.internalCounter.toNat else 0

/-- **Never too fast**: each timeout has to be earned with `p + 1` clocks, however the timer is started and
loaded. -/
theorem AtLeast.clock {t : Timer} {p : Nat} (h : AtLeast t p) (hp : 0 < p) {w : Option BusWrite}
    (hstop : stopStrobe w = false) (hload : p ≤ (t.clock w).counterLoadValue.toNat) :
    AtLeast (t.clock w) p ∧ (t.clock w).credit p + (p + 1) * t.event.toNat ≤ t.credit p + 1 := by
  have hcredit : (t.clock w).credit p ≤ p - (t.clock w).internalCounter.toNat := by
    unfold credit
    split
    · exact le_refl _
    · exact Nat.zero_le _
  have hload' := h.load
  cases hrun : t.counterIsRunning with
  | false =>
    have hstill := h.still hrun
    have hz : t.counterIsZero = false := by
      refine decide_eq_false fun h0 => ?_
      rw [h0] at hstill
      exact absurd hstill (Nat.not_le.2 hp)
    have hcounter : p ≤ (t.clock w).internalCounter.toNat := by
      cases hf : t.forceReload <;> simp only [Timer.clock, hrun, hf, hz, Bool.false_or, Bool.or_true, if_true] <;>
        assumption
    refine ⟨⟨hload, fun _ => hcounter⟩, ?_⟩
    rw [event, hz, Bool.false_and, Bool.toNat_false]
    omega
  | true =>
    cases hz : t.counterIsZero || t.forceReload with
    | true =>
      have hcounter : (t.clock w).internalCounter = t.counterLoadValue := by
        simp only [Timer.clock, hrun, hz, Bool.true_or, if_true]
      refine ⟨⟨hload, fun _ => hcounter ▸ hload'⟩, ?_⟩
      have hone := Bool.toNat_le t.event
      cases hz' : t.counterIsZero with
      | true =>
        have hfull : t.credit p = p := by
          rw [credit, if_pos hrun, of_decide_eq_true hz']
          rfl
        have := Nat.mul_le_mul_left (p + 1) hone
        rw [hcounter] at hcredit
        omega
      | false =>
        rw [hcounter] at hcredit
        rw [event, hz', Bool.false_and, Bool.toNat_false]
        omega
    | false =>
      obtain ⟨hz', hf⟩ := Bool.or_eq_false_iff.1 hz
      have hpos : t.internalCounter.toNat ≠ 0 := fun h0 => of_decide_eq_false hz' (BitVec.eq_of_toNat_eq h0)
      have hcounter : (t.clock w).internalCounter.toNat = t.internalCounter.toNat - 1 := by
        simp only [Timer.clock, hrun, hz, Bool.true_or, if_true]
        exact toNat_sub_one hpos
      refine ⟨⟨hload, fun hstopped => ?_⟩, ?_⟩
      · simp [Timer.clock, hstop, hf, hz', hrun] at hstopped
      · have hrest : t.credit p = p - t.internalCounter.toNat := if_pos hrun
        rw [event, hz', Bool.false_and, Bool.toNat_false]
        omega

/-- Each timeout sets the bit at most. -/
theorem timeout_clock (t : Timer) (w : Option BusWrite) :
    (t.clock w).timeoutOccurred.toNat ≤ t.timeoutOccurred.toNat + t.event.toNat := by
  show (if strobe w TIMER_STATUS_REG then false else if t.event then true else t.timeoutOccurred).toNat ≤ _
  split
  · exact Nat.zero_le _
  · split
    · next h => rw [h]; exact Nat.le_add_left 1 _
    · exact Nat.le_add_right _ _

end Timer
end NuttyNios
