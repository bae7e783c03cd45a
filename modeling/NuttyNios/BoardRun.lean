import NuttyNios.Board
import NuttyNios.JtagWrite
/-!
# Runs of the board

`Move` says all that a step of the board can do, and `Inv` what holds at any time; `k` is the number of
statements of the start-up that are done.
-/

namespace NuttyNios
open Timer

/-! ## The driver -/

/-- Only an interrupt or the alarm starts the interrupt routine. -/
theorem Jtag.step_isr {s s' : Jtag} {e : Jtag.Step} {o : Jtag.Out} (hisr : s.isr = none) (hirq : e ≠ .irq)
    (htick : e ≠ .tick)
    (hs : s.step e = .ok (s', o)) : s'.isr = none := by
  cases e with
  | cpu =>
    simp only [Jtag.step, hisr, Jtag.taskStep] at hs
    split at hs
    · cases hs
      exact hisr
    · cases hs
      exact hisr
    · next c pc ht => exact (Jtag.readStep_frame ht hs).2.1.trans hisr
    · next c pc ht => exact (Jtag.writeStep_frame ht hs).2.1.trans hisr
  | irq => exact absurd rfl hirq
  | tick => exact absurd rfl htick
  | read space nonblock =>
    simp only [Jtag.step] at hs
    split at hs <;> cases hs <;> exact hisr
  | write data nonblock =>
    simp only [Jtag.step] at hs
    split at hs <;> cases hs <;> exact hisr
  | hostSend c | hostPause | hostTake | clock =>
    cases hs
    exact hisr

/-- The interrupt line stays up until the processor acts. -/
theorem Jtag.step_line {s s' : Jtag} {e : Jtag.Step} {o : Jtag.Out} {w : BitVec 32} (hu : UartInv s.uart w 0)
    (he : e = .clock ∨ (∃ c, e = .hostSend c) ∨ e = .hostPause ∨ e = .hostTake) (hline : s.uart.irq = true)
    (hs : s.step e = .ok (s', o)) : s'.uart.irq = true := by
  rw [Uart.irq, Bool.or_eq_true, Uart.ipenAE, Uart.ipenAF, Bool.and_eq_true, Bool.and_eq_true, Bool.or_eq_true]
    at hline ⊢
  rcases he with rfl | ⟨c, rfl⟩ | rfl | rfl <;> cases hs
  · refine hline.imp (fun h => ⟨h.1, ?_⟩) fun h => ⟨h.1, h.2.imp id fun hAF => ?_⟩
    · exact decide_eq_true (hu.fifoAE h.2)
    · have hfull := hu.fifoAF hAF
      refine decide_eq_true ?_
      rw [Fifo.used]
      omega
  · exact hline
  · refine hline.imp id fun h => ⟨h.1, h.2.imp (fun hp => ?_) id⟩
    show (s.uart.pauseIrq || _) = true
    rw [hp, Bool.true_or]
  · exact hline

/-! ## The alarm -/

/-- Setting the rate touches neither the list nor the time. -/
theorem Alarms.sysclkInit_frame (s : Alarms Unit Unit) (nticks : BitVec 32) : (s.sysclkInit nticks).list = s.list ∧
    (s.sysclkInit nticks).time = s.time ∧ (s.sysclkInit nticks).nticks = s.nticks := by
  rw [Alarms.sysclkInit]
  split <;> exact ⟨rfl, rfl, rfl⟩

/-- With no alarm but the driver's, `alt_tick` comes to an end; it calls it only when it is due. -/
theorem Alarms.tick_one {s : Alarms Unit Unit}
    (hlist : s.list.next none = none ∨ s.list.next none = some () ∧ s.list.next (some ()) = none ∧ s.tickRate ≠ 0) :
    ∃ s' called, s.tick (fun _ w => (w, [], s.tickRate)) 2 () = some (s', (), called) ∧ s'.list = s.list ∧
      s'.tickRate = s.tickRate ∧ s'.nticks = (s.nticks + 1) % 2 ^ 64 ∧
      (called = [] ∧ s'.time = s.time ∨ called = [()] ∧ s.time () ≤ (s.nticks + 1) % 2 ^ 64) := by
  rcases hlist with hnone | ⟨hfirst, hlast, hrate⟩
  · refine ⟨{ s with nticks := (s.nticks + 1) % 2 ^ 64 }, [], ?_, rfl, rfl, rfl, .inl ⟨rfl, rfl⟩⟩
    rw [Alarms.tick]
    simp only [hnone, tickLoop]
  · by_cases hdue : s.time () ≤ (s.nticks + 1) % 2 ^ 64
    · refine ⟨{ s with nticks := (s.nticks + 1) % 2 ^ 64 }.again () s.tickRate, [()], ?_, rfl, rfl, rfl,
        .inr ⟨rfl, hdue⟩⟩
      rw [Alarms.tick]
      simp only [hfirst, tickLoop, if_pos hdue, perform, if_neg hrate, hlast]
      rfl
    · refine ⟨{ s with nticks := (s.nticks + 1) % 2 ^ 64 }, [], ?_, rfl, rfl, rfl, .inl ⟨rfl, rfl⟩⟩
      rw [Alarms.tick]
      simp only [hfirst, tickLoop, if_neg hdue, hlast]

namespace Config

/-- The configuration after the first statements of the start-up. -/
def after (k : Nat) : Except FileFault Config := (plan.take k).foldlM Config.exec Config.reset

/-- What is registered when: every interrupt that is enabled has its handler, and timer0's changes hands. -/
def Sound (k : Nat) (c : Config) : Prop :=
  (∀ i : Fin NIOS2_NIRQ, c.active.getLsbD i.val = true → c.handler i ≠ none) ∧
  (∀ i h, c.handler i = some h → i = if h = .jtagUart then JTAG_UART_IRQ else TIMER0_IRQ) ∧
  (c.handler TIMER0_IRQ = some .getAcclerIsr ↔ 11 ≤ k) ∧
  (k = 12 → c.nonblock 0 = true ∧ c.nonblock 1 = false)

instance : Fintype Handler := ⟨{.timerSc, .jtagUart, .getAcclerIsr}, fun h => by cases h <;> decide⟩

instance (k : Nat) (c : Config) : Decidable (Sound k c) := inferInstanceAs (Decidable (_ ∧ _ ∧ _ ∧ _))

theorem sound_after {k : Nat} (hk : k ≤ 12) : ∃ c, after k = .ok c ∧ Sound k c := by
  interval_cases k <;> exact ⟨_, rfl, by decide⟩

theorem after_succ {k : Nat} {c : Config} {st : Boot} {boot : List Boot} (hk : plan.drop k = st :: boot)
    (hc : after k = .ok c) : plan.drop (k + 1) = boot ∧ k + 1 ≤ 12 ∧ after (k + 1) = c.exec st := by
  have hlt : k < plan.length := by
    by_contra hge
    rw [List.drop_eq_nil_of_le (Nat.le_of_not_lt hge)] at hk
    cases hk
  rw [List.drop_eq_getElem_cons hlt] at hk
  obtain ⟨hst, hboot⟩ := List.cons.inj hk
  refine ⟨hboot, hlt, ?_⟩
  rw [after, List.take_add_one, List.getElem?_eq_getElem hlt, hst, List.foldlM_append]
  rw [show (plan.take k).foldlM exec reset = .ok c from hc]
  show (c.exec st >>= pure) = _
  cases c.exec st <;> rfl

theorem stage_init : ∀ k ≤ 12, (plan.drop k).head? = some .jtagUartInit ↔ k = 3 := by decide

theorem stage_sysclk : ∀ k ≤ 12, (plan.drop k).head? = some .sysclkInit ↔ k = 0 := by decide

end Config

/-! ## The timer -/

/-- How timer0 is set when `k` statements of the start-up are done. -/
def TimerAt (k : Nat) (t : Timer) : Prop :=
  if k ≤ 8 then (t.periodH = 0#16 ∧ t.periodL = 2499#16) ∧ t.forceReload = false
  else if k ≤ 10 then (t.periodH = 0#16 ∧ t.periodL = 0xC4F0#16) ∧
    (t.forceReload = true ∨ t.counterIsRunning = false ∧ t.internalCounter = 50416#32)
  else if k = 11 then (t.periodH = 0#16 ∧ t.periodL = 0xC4F0#16) ∧ t.forceReload = false ∧
    t.counterIsRunning = false ∧ t.internalCounter = 50416#32
  else t.Free 50416

/-- The timer has been loaded and stands still. -/
theorem clock_reload {t : Timer} {w : Option BusWrite} (hstart : startStrobe w = false)
    (hperiod : t.periodH = 0#16 ∧ t.periodL = 0xC4F0#16)
    (h : t.forceReload = true ∨ t.counterIsRunning = false ∧ t.internalCounter = 50416#32) :
    (t.clock w).counterIsRunning = false ∧ (t.clock w).internalCounter = 50416#32 := by
  have hload : t.counterLoadValue = 50416#32 := by
    rw [counterLoadValue, hperiod.1, hperiod.2]
    rfl
  cases hf : t.forceReload with
  | true => simp [Timer.clock, hstart, hf, hload]
  | false =>
    obtain ⟨hrun, hcounter⟩ := h.resolve_left (by rw [hf]; exact Bool.false_ne_true)
    simp [Timer.clock, hstart, hf, hrun, hcounter]

theorem TimerAt.clock {k : Nat} {t : Timer} (h : TimerAt k t) {w : Option BusWrite} (hw : StatusOnly w) :
    TimerAt k (t.clock w) := by
  have hcontrol := hw.strobe (a := TIMER_CONTROL_REG) (by decide)
  have hh := hw.strobe (a := TIMER_PERIODH_REG) (by decide)
  have hl := hw.strobe (a := TIMER_PERIODL_REG) (by decide)
  have hstart : startStrobe w = false := by rw [startStrobe, hcontrol, Bool.and_false]
  have hforce : (t.clock w).forceReload = false := by
    show (strobe w TIMER_PERIODH_REG || strobe w TIMER_PERIODL_REG) = false
    rw [hh, hl]
    rfl
  have hH : (t.clock w).periodH = t.periodH := by
    show (if strobe w TIMER_PERIODH_REG then _ else _) = _
    rw [hh]
    rfl
  have hL : (t.clock w).periodL = t.periodL := by
    show (if strobe w TIMER_PERIODL_REG then _ else _) = _
    rw [hl]
    rfl
  unfold TimerAt at h ⊢
  rw [hH, hL]
  split
  · next h8 =>
    rw [if_pos h8] at h
    exact ⟨h.1, hforce⟩
  next h8 =>
  rw [if_neg h8] at h
  split
  · next h10 =>
    rw [if_pos h10] at h
    exact ⟨h.1, .inr (clock_reload hstart h.1 h.2)⟩
  next h10 =>
  rw [if_neg h10] at h
  split
  · next h11 =>
    rw [if_pos h11] at h
    exact ⟨h.1, hforce, clock_reload hstart h.1 (.inr h.2.2)⟩
  · next h11 =>
    rw [if_neg h11] at h
    exact (h.clock (by decide) hw).1

theorem TimerAt.load {k : Nat} {t : Timer} (h : TimerAt k t) :
    t.counterLoadValue.toNat = if k ≤ 8 then 2499 else 50416 := by
  unfold TimerAt at h
  have hload : ∀ l : BitVec 16, t.periodH = 0#16 ∧ t.periodL = l → t.counterLoadValue.toNat = l.toNat := by
    rintro l ⟨hh, hl⟩
    rw [counterLoadValue, hh, hl, BitVec.toNat_append]
    simp
  split
  · next h8 =>
    rw [if_pos h8] at h
    exact hload _ h.1
  next h8 =>
  rw [if_neg h8] at h
  split at h
  · exact hload _ h.1
  · split at h
    · exact hload _ h.1
    · exact h.load

/-- A statement of the start-up does to the timer what it is for. -/
theorem TimerAt.boot {k : Nat} {t : Timer} (h : TimerAt k t) {st : Boot} {boot : List Boot}
    (hst : plan.drop k = st :: boot) :
    TimerAt (k + 1) (t.clock (Board.Boot.write st)) := by
  have hk : k < 12 := by
    by_contra hge
    rw [List.drop_eq_nil_of_le (Nat.le_of_not_lt hge)] at hst
    cases hst
  interval_cases k <;> cases hst
  -- before the period is written, only the control and the status register are
  all_goals try exact ⟨h.1, rfl⟩
  · exact ⟨⟨h.1.1, rfl⟩, .inl rfl⟩
  · exact ⟨⟨rfl, h.1.2⟩, .inl rfl⟩
  · exact ⟨h.1, rfl, clock_reload rfl h.1 h.2⟩
  · obtain ⟨hperiod, hforce, hrun, hcounter⟩ := h
    have hcounter' : (t.clock (some (TIMER_CONTROL_REG, 7#16))).internalCounter = 50416#32 := by
      simp [Timer.clock, hforce, hrun, hcounter]
    refine ⟨rfl, rfl, ?_, ?_, ?_, ?_⟩
    · show (BitVec.setWidth 4 7#16).getLsbD 1 = true
      decide
    · show (t.periodH ++ t.periodL).toNat = 50416
      rw [hperiod.1, hperiod.2]
      rfl
    · show (t.clock (some (TIMER_CONTROL_REG, 7#16))).internalCounter.toNat ≤ 50416
      rw [hcounter']
      decide
    · intro h0
      exact absurd (hcounter'.symm.trans h0) (by decide)

/-! ## What can happen -/

/-- Whether a step takes a clock. -/
def BoardStep.time : BoardStep → Nat
  | .cpu | .interrupt | .clock => 1
  | _ => 0

def BoardOut.step? : BoardOut → Option Jtag.Step
  | .driver e _ => some e
  | .sample => none

def BoardOut.out? : BoardOut → Option Jtag.Out
  | .driver _ o => some o
  | .sample => none

def BoardOut.isSample : BoardOut → Bool
  | .driver _ _ => false
  | .sample => true

namespace Board

/-- Everything a step can do. -/
inductive Move (b : Board) : BoardStep → Board → List BoardOut → Prop
  | ignored (e : BoardStep) (he : e.time = 0) : Move b e b []
  | host (e : BoardStep) (je : Jtag.Step) (jtag : Jtag) (o : Jtag.Out) (he : e.time = 0)
      (hs : b.jtag.step je = .ok (jtag, o))
      (hje : (∃ c, je = .hostSend c) ∨ je = .hostPause ∨ je = .hostTake ∧ e = .hostTake) :
      Move b e { b with jtag } [.driver je o]
  | call (e : BoardStep) (je : Jtag.Step) (jtag : Jtag) (o : Jtag.Out) (he : e.time = 0)
      (hs : b.jtag.step je = .ok (jtag, o))
      (hboot : b.boot = []) (hirq : b.irq = none)
      (hje : (∃ n, je = .read n (b.config.nonblock 0)) ∨ ∃ data, je = .write data (b.config.nonblock 1)) :
      Move b e { b with jtag } [.driver je o]
  | clock (jtag : Jtag) (o : Jtag.Out) (hs : b.jtag.step .clock = .ok (jtag, o)) :
      Move b .clock { b.clock none with jtag } [.driver .clock o]
  | entry (hirq : b.irq = none) (hpending : b.pending ≠ 0#32) :
      Move b .interrupt { b.clock none with irq := some .enter } []
  | noEntry : Move b .interrupt (b.clock none) []
  | leave (hirq : b.irq = some .again) : Move b .cpu { b.clock none with irq := none } []
  | driver (jtag : Jtag) (o : Jtag.Out) (hirq : b.irq = some .enter ∨ b.irq = some .again)
      (hline : b.jtag.uart.irq = true)
      (hs : b.jtag.step .irq = .ok (jtag, o)) :
      Move b .cpu { b.clock none with jtag, irq := some .driver } [.driver .irq o]
  | timerSc (hirq : b.irq = some .enter ∨ b.irq = some .again) (hline : b.timer.irq = true)
      (hh : b.config.handler TIMER0_IRQ = some .timerSc) :
      Move b .cpu { b.clock (some (TIMER_STATUS_REG, 0#16)) with irq := some .tick } []
  | getAcclerIsr (hirq : b.irq = some .enter ∨ b.irq = some .again) (hline : b.timer.irq = true) :
      Move b .cpu { b.clock (some (TIMER_STATUS_REG, 0#16)) with irq := some .sample } []
  | tick (alarms : Alarms Unit Unit) (hirq : b.irq = some .tick)
      (htick : b.alarms.tick (fun _ w => (w, [], b.alarms.tickRate)) 2 () = some (alarms, (), [])) :
      Move b .cpu { b.clock none with alarms, irq := some .again } []
  | alarm (alarms : Alarms Unit Unit) (jtag : Jtag) (o : Jtag.Out) (called : List Unit) (hirq : b.irq = some .tick)
      (htick : b.alarms.tick (fun _ w => (w, [], b.alarms.tickRate)) 2 () = some (alarms, (), () :: called))
      (hs : b.jtag.step .tick = .ok (jtag, o)) :
      Move b .cpu { b.clock none with alarms, jtag, irq := some .driver } [.driver .tick o]
  | isr (jtag : Jtag) (o : Jtag.Out) (hirq : b.irq = some .driver) (hisr : b.jtag.isr ≠ none)
      (hs : b.jtag.step .cpu = .ok (jtag, o)) :
      Move b .cpu { b.clock none with jtag } [.driver .cpu o]
  | back (hirq : b.irq = some .driver) (hisr : b.jtag.isr = none) :
      Move b .cpu { b.clock none with irq := some .again } []
  | sample (hirq : b.irq = some .sample) : Move b .cpu { b.clock none with irq := some .again } [.sample]
  | task (jtag : Jtag) (o : Jtag.Out) (hirq : b.irq = none) (hboot : b.boot = [])
      (hs : b.jtag.step .cpu = .ok (jtag, o)) :
      Move b .cpu { b.clock none with jtag } [.driver .cpu o]
  | boot (st : Boot) (boot : List Boot) (config : Config) (alarms : Alarms Unit Unit) (hirq : b.irq = none)
      (hboot : b.boot = st :: boot) (hconfig : b.config.exec st = .ok config) (hst : st ≠ .jtagUartInit)
      (halarms : alarms = if st = .sysclkInit then b.alarms.sysclkInit TIMER0_TICKS_PER_SEC else b.alarms) :
      Move b .cpu { b.clock (Boot.write st) with boot, config, alarms } []
  | init (boot : List Boot) (config : Config) (alarms : Alarms Unit Unit) (jtag : Jtag) (o : Jtag.Out)
      (hirq : b.irq = none)
      (hboot : b.boot = .jtagUartInit :: boot) (hconfig : b.config.exec .jtagUartInit = .ok config)
      (hstart : b.alarms.start (some ()) b.alarms.tickRate () = .ok alarms) (htask : b.jtag.task = .init true)
      (hs : b.jtag.step .cpu = .ok (jtag, o)) :
      Move b .cpu { b.clock none with boot, config, alarms, jtag } [.driver .cpu o]

/-- What holds at any time, after `k` statements of the start-up. -/
structure Inv (b : Board) (k : Nat) : Prop where
  stage : k ≤ 12
  boot : b.boot = plan.drop k
  config : Config.after k = .ok b.config
  jtag : Jtag.Inv b.jtag
  task : k ≤ 3 → b.jtag.task = .init true
  isr : b.irq ≠ some .driver → b.jtag.isr = none
  enter : b.irq = some .enter → b.pending ≠ 0#32
  late : 11 ≤ k → b.irq ≠ some .tick
  timer : TimerAt k b.timer
  rate : b.alarms.tickRate = if k = 0 then 0 else TIMER0_TICKS_PER_SEC
  alarms : if k ≤ 3 then b.alarms.list.next none = none
    else b.alarms.list.next none = some () ∧ b.alarms.list.next (some ()) = none

theorem Inv.sound {b : Board} {k : Nat} (h : Inv b k) : b.config.Sound k := by
  obtain ⟨c, hc, hsound⟩ := Config.sound_after h.stage
  cases hc.symm.trans h.config
  exact hsound

theorem pending_bit {b : Board} {i : Fin NIOS2_NIRQ} (h : b.pending.getLsbD i.val = true) :
    b.config.active.getLsbD i.val = true ∧ (i = JTAG_UART_IRQ → b.jtag.uart.irq = true) ∧
      (i = TIMER0_IRQ → b.timer.irq = true) := by
  rw [pending, BitVec.getLsbD_and, Bool.and_eq_true, BitVec.getLsbD_or, Bool.or_eq_true] at h
  refine ⟨h.2, ?_, ?_⟩
  · rintro rfl
    rcases h.1 with h | h
    · by_contra hno
      rw [if_neg hno] at h
      exact absurd h (by decide)
    · split at h <;> exact absurd h (by decide)
  · rintro rfl
    rcases h.1 with h | h
    · split at h <;> exact absurd h (by decide)
    · by_contra hno
      rw [if_neg hno] at h
      exact absurd h (by decide)

theorem drive_ok {b : Board} {k : Nat} (h : Inv b k) (b₁ : Board) (hb : b₁.jtag = b.jtag) (e : Jtag.Step) :
    ∃ jtag o, b.jtag.step e = .ok (jtag, o) ∧ b₁.drive e = .ok ({ b₁ with jtag }, [.driver e o]) := by
  obtain ⟨jtag, o, hs, -⟩ := Jtag.step_total b.jtag e h.jtag
  have hs : b.jtag.step e = .ok (jtag, o) := hs
  refine ⟨jtag, o, hs, ?_⟩
  rw [drive, hb, hs]

/-- The scan finds an interrupt, and it has a handler. -/
theorem dispatch_moves {b : Board} {k : Nat} (h : Inv b k) (hirq : b.irq = some .enter ∨ b.irq = some .again)
    (hpending : b.pending ≠ 0#32) : ∃ b' l, b.dispatch = .ok (b', l) ∧ Move b .cpu b' l := by
  obtain ⟨hhandler, hirqs, -, -⟩ := h.sound
  unfold dispatch
  cases hfind : (List.finRange NIOS2_NIRQ).find? fun i => b.pending.getLsbD i.val with
  | none =>
    refine absurd (BitVec.eq_of_getLsbD_eq fun i hi => ?_) hpending
    have := List.find?_eq_none.1 hfind ⟨i, hi⟩ (List.mem_finRange _)
    simpa using this
  | some i =>
    have hbit : b.pending.getLsbD i.val = true :=
      List.find?_some (p := fun i : Fin NIOS2_NIRQ => b.pending.getLsbD i.val) hfind
    obtain ⟨hactive, hline, htimer⟩ := pending_bit hbit
    cases hh : b.config.handler i with
    | none => exact absurd hh (hhandler i hactive)
    | some handler =>
      have hi := hirqs i handler hh
      simp only [hh]
      cases handler with
      | jtagUart =>
        obtain ⟨jtag, o, hs, hdrive⟩ := drive_ok h { b.clock none with irq := some .driver } rfl .irq
        exact ⟨_, _, hdrive, .driver jtag o hirq (hline hi) hs⟩
      | timerSc => exact ⟨_, _, rfl, .timerSc hirq (htimer hi) ((congrArg _ hi).symm.trans hh)⟩
      | getAcclerIsr => exact ⟨_, _, rfl, .getAcclerIsr hirq (htimer hi)⟩

theorem exec_moves {b : Board} {k : Nat} (h : Inv b k) (hirq : b.irq = none) {st : Boot} {boot : List Boot}
    (hboot : b.boot = st :: boot) :
    ∃ b' l, ({ b.clock (Boot.write st) with boot } : Board).exec st = .ok (b', l) ∧ Move b .cpu b' l := by
  obtain ⟨-, hk, hafter⟩ := Config.after_succ (h.boot.symm.trans hboot) h.config
  obtain ⟨config, hconfig, -⟩ := Config.sound_after hk
  have hexec : b.config.exec st = .ok config := hafter.symm.trans hconfig
  unfold exec
  simp only [clock, hexec]
  by_cases hst : st = .jtagUartInit
  · subst hst
    have h3 := (Config.stage_init k h.stage).1 (congrArg List.head? (h.boot.symm.trans hboot))
    have hrate := h.rate.trans (if_neg (by omega))
    have htask := h.task (by omega)
    obtain ⟨alarms, hstart⟩ : ∃ alarms, b.alarms.start (some ()) b.alarms.tickRate () = .ok alarms := by
      rw [Alarms.start, if_pos (hrate ▸ by decide)]
      exact ⟨_, rfl⟩
    have hsame : { b.jtag with task := .init true } = b.jtag := by
      rw [← htask]
    simp only [hstart, hsame]
    obtain ⟨jtag, o, hs, hdrive⟩ := drive_ok h { b.clock none with boot, config, alarms } rfl .cpu
    exact ⟨_, _, hdrive, .init boot config alarms jtag o hirq hboot hexec hstart htask hs⟩
  · cases st with
    | jtagUartInit => exact absurd rfl hst
    | sysclkInit => exact ⟨_, _, rfl, .boot _ boot config _ hirq hboot hexec hst rfl⟩
    | _ => exact ⟨_, _, rfl, .boot _ boot config _ hirq hboot hexec hst rfl⟩

theorem Inv.tick {b : Board} {k : Nat} (h : Inv b k) : ∃ alarms called,
    b.alarms.tick (fun _ w => (w, [], b.alarms.tickRate)) 2 () = some (alarms, (), called) ∧
      alarms.list = b.alarms.list ∧ alarms.tickRate = b.alarms.tickRate ∧
      alarms.nticks = (b.alarms.nticks + 1) % 2 ^ 64 ∧ (called = [] ∧ alarms.time = b.alarms.time ∨
        called = [()] ∧ b.alarms.time () ≤ (b.alarms.nticks + 1) % 2 ^ 64) := by
  refine Alarms.tick_one ?_
  have halarms := h.alarms
  split at halarms
  · exact .inl halarms
  · exact .inr ⟨halarms.1, halarms.2, h.rate.trans (if_neg (by omega)) ▸ by decide⟩

theorem Inv.ticked {b : Board} {k : Nat} (h : Inv b k) {alarms : Alarms Unit Unit} {called : List Unit}
    (htick : b.alarms.tick (fun _ w => (w, [], b.alarms.tickRate)) 2 () = some (alarms, (), called)) :
    alarms.list = b.alarms.list ∧ alarms.tickRate = b.alarms.tickRate ∧ alarms.nticks = (b.alarms.nticks + 1) % 2 ^ 64 ∧
      (called = [] ∧ alarms.time = b.alarms.time ∨
        called = [()] ∧ b.alarms.time () ≤ (b.alarms.nticks + 1) % 2 ^ 64) := by
  obtain ⟨alarms', called', htick', hticked⟩ := h.tick
  cases htick.symm.trans htick'
  exact hticked

/-- A statement of the start-up sets the rate at most. -/
theorem boot_alarms {s alarms : Alarms Unit Unit} {st : Boot}
    (h : alarms = if st = .sysclkInit then s.sysclkInit TIMER0_TICKS_PER_SEC else s) :
    alarms.list = s.list ∧ alarms.time = s.time ∧ alarms.nticks = s.nticks := by
  split at h
  · exact h ▸ s.sysclkInit_frame TIMER0_TICKS_PER_SEC
  · rw [h]
    exact ⟨rfl, rfl, rfl⟩

theorem cpu_moves {b : Board} {k : Nat} (h : Inv b k) : ∃ b' l, b.cpu = .ok (b', l) ∧ Move b .cpu b' l := by
  unfold cpu
  cases hirq : b.irq with
  | none =>
    simp only
    cases hboot : b.boot with
    | nil =>
      obtain ⟨jtag, o, hs, hdrive⟩ := drive_ok h (b.clock none) rfl .cpu
      exact ⟨_, _, hdrive, .task jtag o hirq hboot hs⟩
    | cons st boot => exact exec_moves h hirq hboot
  | some pc =>
    simp only
    cases pc with
    | enter => exact dispatch_moves h (.inl hirq) (h.enter hirq)
    | again =>
      by_cases hpending : b.pending = 0#32
      · exact ⟨_, _, if_pos hpending, .leave hirq⟩
      · obtain ⟨b', l, hdispatch, hmove⟩ := dispatch_moves h (.inr hirq) hpending
        exact ⟨b', l, (if_neg hpending).trans hdispatch, hmove⟩
    | tick =>
      obtain ⟨alarms, called, htick, -⟩ := h.tick
      simp only [htick]
      cases called with
      | nil => exact ⟨_, _, rfl, .tick alarms hirq htick⟩
      | cons a called =>
        obtain ⟨jtag, o, hs, hdrive⟩ := drive_ok h { b.clock none with alarms, irq := some .driver } rfl .tick
        exact ⟨_, _, hdrive, .alarm alarms jtag o called hirq htick hs⟩
    | driver =>
      simp only
      cases hisr : b.jtag.isr with
      | none => exact ⟨_, _, rfl, .back hirq hisr⟩
      | some pc =>
        obtain ⟨jtag, o, hs, hdrive⟩ := drive_ok h (b.clock none) rfl .cpu
        exact ⟨_, _, hdrive, .isr jtag o hirq (hisr ▸ Option.some_ne_none pc) hs⟩
    | sample => exact ⟨_, _, rfl, .sample hirq⟩

/-- **Nothing goes wrong**: there is always a next step, and it is one of the moves. -/
theorem step_moves {b : Board} {k : Nat} (h : Inv b k) (e : BoardStep) :
    ∃ b' l, b.step e = .ok (b', l) ∧ Move b e b' l := by
  have houtside : ∀ je, ∃ jtag o, b.jtag.step je = .ok (jtag, o) ∧ b.drive je = .ok ({ b with jtag }, [.driver je o]) :=
    fun je => drive_ok h b rfl je
  cases e with
  | cpu => exact cpu_moves h
  | interrupt =>
    by_cases hentry : b.irq = none ∧ b.pending ≠ 0#32
    · exact ⟨_, _, if_pos hentry, .entry hentry.1 hentry.2⟩
    · exact ⟨_, _, if_neg hentry, .noEntry⟩
  | clock =>
    obtain ⟨jtag, o, hs, hdrive⟩ := drive_ok h (b.clock none) rfl .clock
    exact ⟨_, _, hdrive, .clock jtag o hs⟩
  | read len =>
    cases hcalling : b.calling with
    | false => exact ⟨_, _, if_neg (Bool.not_eq_true _ ▸ hcalling), .ignored _ rfl⟩
    | true =>
      obtain ⟨jtag, o, hs, hdrive⟩ := houtside (.read len (b.config.nonblock 0))
      obtain ⟨hirq, hboot⟩ := Bool.and_eq_true_iff.1 hcalling
      exact ⟨_, _, (if_pos hcalling).trans hdrive,
        .call _ _ jtag o rfl hs (List.isEmpty_iff.1 hboot) (Option.isNone_iff_eq_none.1 hirq) (.inl ⟨len, rfl⟩)⟩
  | write data =>
    cases hcalling : b.calling with
    | false => exact ⟨_, _, if_neg (Bool.not_eq_true _ ▸ hcalling), .ignored _ rfl⟩
    | true =>
      obtain ⟨jtag, o, hs, hdrive⟩ := houtside (.write data (b.config.nonblock 1))
      obtain ⟨hirq, hboot⟩ := Bool.and_eq_true_iff.1 hcalling
      exact ⟨_, _, (if_pos hcalling).trans hdrive,
        .call _ _ jtag o rfl hs (List.isEmpty_iff.1 hboot) (Option.isNone_iff_eq_none.1 hirq) (.inr ⟨data, rfl⟩)⟩
  | hostSend c =>
    obtain ⟨jtag, o, hs, hdrive⟩ := houtside (.hostSend c)
    exact ⟨_, _, hdrive, .host _ _ jtag o rfl hs (.inl ⟨c, rfl⟩)⟩
  | hostPause =>
    obtain ⟨jtag, o, hs, hdrive⟩ := houtside .hostPause
    exact ⟨_, _, hdrive, .host _ _ jtag o rfl hs (.inr (.inl rfl))⟩
  | hostTake =>
    obtain ⟨jtag, o, hs, hdrive⟩ := houtside .hostTake
    exact ⟨_, _, hdrive, .host _ _ jtag o rfl hs (.inr (.inr ⟨rfl, rfl⟩))⟩

/-! ## The invariant -/

theorem pending_eq_zero_iff (b : Board) : b.pending = 0#32 ↔
    (b.jtag.uart.irq = true → BitVec.twoPow 32 JTAG_UART_IRQ.val &&& b.config.active = 0#32) ∧
    (b.timer.irq = true → BitVec.twoPow 32 TIMER0_IRQ.val &&& b.config.active = 0#32) := by
  rw [pending, BitVec.and_or_distrib_right, BitVec.or_eq_zero_iff]
  refine and_congr ?_ ?_
  · split
    · next h => exact ⟨fun h0 _ => h0, fun h0 => h0 h⟩
    · next h => exact ⟨fun _ h' => absurd h' h, fun _ => BitVec.zero_and⟩
  · split
    · next h => exact ⟨fun h0 _ => h0, fun h0 => h0 h⟩
    · next h => exact ⟨fun _ h' => absurd h' h, fun _ => BitVec.zero_and⟩

/-- The device alone takes no interrupt back. -/
theorem pending_mono {b b' : Board} (hconfig : b'.config = b.config)
    (huart : b.jtag.uart.irq = true → b'.jtag.uart.irq = true) (htimer : b.timer.irq = true → b'.timer.irq = true)
    (h : b.pending ≠ 0#32) : b'.pending ≠ 0#32 := by
  intro h0
  rw [pending_eq_zero_iff, hconfig] at h0
  exact h ((pending_eq_zero_iff b).2 ⟨fun hl => h0.1 (huart hl), fun hl => h0.2 (htimer hl)⟩)

/-- Steps that leave the start-up where it is. -/
theorem Inv.same {b b' : Board} {k : Nat} (h : Inv b k) (hboot : b'.boot = b.boot) (hconfig : b'.config = b.config)
    (hlist : b'.alarms.list = b.alarms.list) (hrate : b'.alarms.tickRate = b.alarms.tickRate) (hjtag : Jtag.Inv b'.jtag)
    (htask : b.jtag.task = .init true → b.boot ≠ [] → b'.jtag.task = .init true)
    (hisr : b'.irq ≠ some .driver → b'.jtag.isr = none) (henter : b'.irq = some .enter → b'.pending ≠ 0#32)
    (hlate : b'.irq = some .tick → b.irq = some .tick ∨ b.config.handler TIMER0_IRQ = some .timerSc)
    (htimer : b'.timer = b.timer ∨ ∃ w, StatusOnly w ∧ b'.timer = b.timer.clock w) : Inv b' k where
  stage := h.stage
  boot := hboot.trans h.boot
  config := hconfig ▸ h.config
  jtag := hjtag
  task := by
    intro hk
    refine htask (h.task hk) fun hnil => ?_
    rw [h.boot] at hnil
    have := List.drop_eq_nil_iff.1 hnil
    exact absurd this (by show ¬ 12 ≤ k; omega)
  isr := hisr
  enter := henter
  late := by
    intro hk htick
    rcases hlate htick with h0 | h0
    · exact h.late hk h0
    · rw [h.sound.2.2.1.2 hk] at h0
      cases h0
  timer := by
    rcases htimer with h0 | ⟨w, hw, h0⟩
    · exact h0 ▸ h.timer
    · exact h0 ▸ h.timer.clock hw
  rate := hrate.trans h.rate
  alarms := hlist ▸ h.alarms

/-- A statement of the start-up. -/
theorem Inv.boot_step {b : Board} {k : Nat} (h : Inv b k) {st : Boot} {boot : List Boot} {config : Config}
    {alarms : Alarms Unit Unit} (hirq : b.irq = none) (hboot : b.boot = st :: boot)
    (hconfig : b.config.exec st = .ok config)
    (hst : st ≠ .jtagUartInit)
    (halarms : alarms = if st = .sysclkInit then b.alarms.sysclkInit TIMER0_TICKS_PER_SEC else b.alarms) :
    Inv { b.clock (Boot.write st) with boot, config, alarms } (k + 1) := by
  obtain ⟨hdrop, hk, hafter⟩ := Config.after_succ (h.boot.symm.trans hboot) h.config
  have hhead := congrArg List.head? (h.boot.symm.trans hboot)
  have h3 : k ≠ 3 := fun h3 => hst (Option.some.inj (hhead.symm.trans ((Config.stage_init k h.stage).2 h3)))
  obtain ⟨hlist, -⟩ := boot_alarms halarms
  have hrate : alarms.tickRate = TIMER0_TICKS_PER_SEC := by
    have hrate := h.rate
    rw [halarms]
    by_cases h0 : k = 0
    · obtain rfl : st = .sysclkInit := Option.some.inj (hhead.symm.trans ((Config.stage_sysclk k h.stage).2 h0))
      rw [if_pos h0] at hrate
      rw [if_pos rfl, Alarms.sysclkInit, if_pos hrate]
    · have hst' : st ≠ .sysclkInit := fun hst' => h0 ((Config.stage_sysclk k h.stage).1 (hst' ▸ hhead))
      rw [if_neg h0] at hrate
      rw [if_neg hst', hrate]
  refine ⟨hk, hdrop.symm, hafter.trans hconfig, h.jtag, fun hk => h.task (by omega),
    fun _ => h.isr (by rw [hirq]; simp), fun h0 => absurd (hirq.symm.trans h0) (by simp),
    fun _ h0 => absurd (hirq.symm.trans h0) (by simp), h.timer.boot (h.boot.symm.trans hboot), hrate, ?_⟩
  show if k + 1 ≤ 3 then alarms.list.next none = none
    else alarms.list.next none = some () ∧ alarms.list.next (some ()) = none
  have halarms := h.alarms
  rw [hlist]
  by_cases hk3 : k ≤ 3
  · rw [if_pos hk3] at halarms
    rw [if_pos (by omega)]
    exact halarms
  · rw [if_neg hk3] at halarms
    rw [if_neg (by omega)]
    exact halarms

/-- `altera_avalon_jtag_uart_init`, which starts the driver's alarm. -/
theorem Inv.init_step {b : Board} {k : Nat} (h : Inv b k) {boot : List Boot} {config : Config}
    {alarms : Alarms Unit Unit}
    {jtag : Jtag} {o : Jtag.Out} (hirq : b.irq = none) (hboot : b.boot = .jtagUartInit :: boot)
    (hconfig : b.config.exec .jtagUartInit = .ok config)
    (hstart : b.alarms.start (some ()) b.alarms.tickRate () = .ok alarms)
    (hs : b.jtag.step .cpu = .ok (jtag, o)) : Inv { b.clock none with boot, config, alarms, jtag } (k + 1) := by
  obtain ⟨hdrop, hk, hafter⟩ := Config.after_succ (h.boot.symm.trans hboot) h.config
  have h3 := (Config.stage_init k h.stage).1 (congrArg List.head? (h.boot.symm.trans hboot))
  have hrate := h.rate.trans (if_neg (by omega))
  have halarms := h.alarms
  rw [if_pos (by omega)] at halarms
  rw [Alarms.start, if_pos (hrate ▸ by decide)] at hstart
  cases hstart
  refine ⟨hk, hdrop.symm, hafter.trans hconfig, Jtag.step_inv h.jtag hs, fun hk => by omega,
    fun _ => Jtag.step_isr (h.isr (by rw [hirq]; simp)) (by simp) (by simp) hs,
    fun h0 => absurd (hirq.symm.trans h0) (by simp), fun _ h0 => absurd (hirq.symm.trans h0) (by simp),
    h.timer.boot (h.boot.symm.trans hboot), hrate, ?_⟩
  rw [if_neg (by omega)]
  simp only [Links.insert_next]
  exact ⟨rfl, halarms⟩

theorem Move.inv {b b' : Board} {k : Nat} {e : BoardStep} {l : List BoardOut} (h : Inv b k) (hm : Move b e b' l) :
    ∃ k', k ≤ k' ∧ Inv b' k' := by
  have huart : b.irq = some .enter → UartInv b.jtag.uart b.jtag.irqEnable 0 := by
    intro hirq
    have hu := h.jtag.irq.uart
    rw [h.isr (by rw [hirq]; simp)] at hu
    exact hu
  -- the caller is where it was if the step is not its own
  have htask : ∀ {je jtag o}, b.jtag.step je = .ok (jtag, o) → b.jtag.caller je = false → b.jtag.task = .init true →
      jtag.task = .init true := fun hs hc ht =>
    (Jtag.step_elsewhere h.jtag.rx (by rw [ht]; exact fun h0 => by cases h0) hc hs).1.task.trans ht
  have hclock : ∃ w, StatusOnly w ∧ b.timer.clock none = b.timer.clock w := ⟨none, statusOnly_none, rfl⟩
  cases hm with
  | ignored => exact ⟨k, le_refl k, h⟩
  | host e je jtag o he hs hje =>
    have hc : b.jtag.caller je = false := by
      rcases hje with ⟨c, rfl⟩ | rfl | ⟨rfl, -⟩ <;> simp [Jtag.caller]
    have hquiet : je ≠ .irq ∧ je ≠ .tick := by
      rcases hje with ⟨c, rfl⟩ | rfl | ⟨rfl, -⟩ <;> simp
    refine ⟨k, le_refl k, h.same rfl rfl rfl rfl (Jtag.step_inv h.jtag hs) (fun ht _ => htask hs hc ht)
      (fun hirq => Jtag.step_isr (h.isr hirq) hquiet.1 hquiet.2 hs) (fun hirq => ?_) .inl (.inl rfl)⟩
    refine pending_mono (b := b) rfl (fun hline => Jtag.step_line (huart hirq) ?_ hline hs) id (h.enter hirq)
    exact .inr (hje.imp id fun hje => hje.imp id And.left)
  | call e je jtag o he hs hboot hirq hje =>
    have hquiet : je ≠ .irq ∧ je ≠ .tick := by
      rcases hje with ⟨n, rfl⟩ | ⟨data, rfl⟩ <;> simp
    exact ⟨k, le_refl k, h.same rfl rfl rfl rfl (Jtag.step_inv h.jtag hs) (fun _ hne => absurd hboot hne)
      (fun hirq => Jtag.step_isr (h.isr hirq) hquiet.1 hquiet.2 hs) (fun h0 => absurd (hirq.symm.trans h0) (by simp))
      .inl (.inl rfl)⟩
  | clock jtag o hs =>
    refine ⟨k, le_refl k, h.same rfl rfl rfl rfl (Jtag.step_inv h.jtag hs)
      (fun ht _ => htask hs (by simp [Jtag.caller]) ht)
      (fun hirq => Jtag.step_isr (h.isr hirq) (by simp) (by simp) hs) (fun hirq => ?_) .inl (.inr hclock)⟩
    exact pending_mono (b := b) rfl (fun hline => Jtag.step_line (huart hirq) (.inl rfl) hline hs) irq_clock
      (h.enter hirq)
  | entry hirq hpending =>
    exact ⟨k, le_refl k, h.same rfl rfl rfl rfl h.jtag (fun ht _ => ht) (fun _ => h.isr (by rw [hirq]; simp))
      (fun _ => pending_mono (b := b) rfl id irq_clock hpending) (fun h0 => by cases h0) (.inr hclock)⟩
  | noEntry =>
    exact ⟨k, le_refl k, h.same rfl rfl rfl rfl h.jtag (fun ht _ => ht) h.isr
      (fun hirq => pending_mono (b := b) rfl id irq_clock (h.enter hirq)) .inl (.inr hclock)⟩
  | leave hirq =>
    exact ⟨k, le_refl k, h.same rfl rfl rfl rfl h.jtag (fun ht _ => ht) (fun _ => h.isr (by rw [hirq]; simp))
      (fun h0 => by cases h0) (fun h0 => by cases h0) (.inr hclock)⟩
  | driver jtag o hirq hline hs =>
    exact ⟨k, le_refl k, h.same rfl rfl rfl rfl (Jtag.step_inv h.jtag hs)
      (fun ht _ => htask hs (by simp [Jtag.caller]) ht) (fun hne => absurd rfl hne) (fun h0 => by cases h0)
      (fun h0 => by cases h0) (.inr hclock)⟩
  | timerSc hirq hline hh =>
    exact ⟨k, le_refl k, h.same rfl rfl rfl rfl h.jtag (fun ht _ => ht)
      (fun _ => h.isr (by rcases hirq with hirq | hirq <;> rw [hirq] <;> simp)) (fun h0 => by cases h0)
      (fun _ => .inr hh) (.inr ⟨_, statusOnly_status _, rfl⟩)⟩
  | getAcclerIsr hirq hline =>
    exact ⟨k, le_refl k, h.same rfl rfl rfl rfl h.jtag (fun ht _ => ht)
      (fun _ => h.isr (by rcases hirq with hirq | hirq <;> rw [hirq] <;> simp)) (fun h0 => by cases h0)
      (fun h0 => by cases h0) (.inr ⟨_, statusOnly_status _, rfl⟩)⟩
  | tick alarms hirq htick =>
    obtain ⟨hlist, hrate, -⟩ := h.ticked htick
    exact ⟨k, le_refl k, h.same rfl rfl hlist hrate h.jtag (fun ht _ => ht) (fun _ => h.isr (by rw [hirq]; simp))
      (fun h0 => by cases h0) (fun h0 => by cases h0) (.inr hclock)⟩
  | alarm alarms jtag o called hirq htick hs =>
    obtain ⟨hlist, hrate, -⟩ := h.ticked htick
    exact ⟨k, le_refl k, h.same rfl rfl hlist hrate (Jtag.step_inv h.jtag hs)
      (fun ht _ => htask hs (by simp [Jtag.caller]) ht) (fun hne => absurd rfl hne) (fun h0 => by cases h0)
      (fun h0 => by cases h0) (.inr hclock)⟩
  | isr jtag o hirq hisr hs =>
    refine ⟨k, le_refl k, h.same rfl rfl rfl rfl (Jtag.step_inv h.jtag hs) (fun ht _ => htask hs ?_ ht)
      (fun hne => absurd hirq hne) (fun h0 => absurd (hirq.symm.trans h0) (by simp)) .inl (.inr hclock)⟩
    cases hi : b.jtag.isr with
    | none => exact absurd hi hisr
    | some pc => simp [Jtag.caller, hi]
  | back hirq hisr =>
    exact ⟨k, le_refl k, h.same rfl rfl rfl rfl h.jtag (fun ht _ => ht) (fun _ => hisr) (fun h0 => by cases h0)
      (fun h0 => by cases h0) (.inr hclock)⟩
  | sample hirq =>
    exact ⟨k, le_refl k, h.same rfl rfl rfl rfl h.jtag (fun ht _ => ht) (fun _ => h.isr (by rw [hirq]; simp))
      (fun h0 => by cases h0) (fun h0 => by cases h0) (.inr hclock)⟩
  | task jtag o hirq hboot hs =>
    have hisr := h.isr (by rw [hirq]; simp)
    exact ⟨k, le_refl k, h.same rfl rfl rfl rfl (Jtag.step_inv h.jtag hs) (fun _ hne => absurd hboot hne)
      (fun _ => Jtag.step_isr hisr (by simp) (by simp) hs) (fun h0 => absurd (hirq.symm.trans h0) (by simp)) .inl
      (.inr hclock)⟩
  | boot st boot config alarms hirq hboot hconfig hst halarms =>
    exact ⟨k + 1, Nat.le_succ k, h.boot_step hirq hboot hconfig hst halarms⟩
  | init boot config alarms jtag o hirq hboot hconfig hstart ht hs =>
    exact ⟨k + 1, Nat.le_succ k, h.init_step hirq hboot hconfig hstart hs⟩

end Board
end NuttyNios
