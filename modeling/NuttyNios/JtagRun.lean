import NuttyNios.JtagIrq
/-!
# Runs of the driver

From reset the driver can be run through any list of steps: interrupts, alarms, calls and what the
host does, in any order. In all of them no byte is lost or doubled (`host_to_read`, `write_to_host`), a
caller that waits is waiting for an interrupt that can come (`read_waits_armed`, `write_waits_armed`),
and the interrupt routine, each pass of which makes `pending` less, ends whatever the host does
meanwhile (`isr_returns`).
-/

namespace NuttyNios
open Buffer RingBuffer

namespace Jtag

/-- All that every step keeps. -/
structure Inv (s : Jtag) : Prop where
  rx : RxInv s
  tx : TxInv s
  irq : IrqInv s

theorem step_inv {s s' : Jtag} {e : Step} {o : Out} (h : Inv s) (hs : s.step e = .ok (s', o)) : Inv s' :=
  ⟨(step_rx h.rx hs).1, (step_tx h.tx hs).1, step_irq h.irq h.rx h.tx hs⟩

theorem reset_inv (alarm : Bool) : Inv (reset alarm) := ⟨reset_rx alarm, reset_tx alarm, reset_irq alarm⟩

theorem step_total (s : Jtag) (e : Step) (h : Inv s) : ∃ s' o, jtagUart.step s e = .ok (s', o) ∧ Inv s' := by
  obtain ⟨⟨s', o⟩, hs⟩ := step_ok h.rx h.tx e
  exact ⟨s', o, hs, step_inv h hs⟩

/-- From reset, whatever comes in whatever order, the driver runs on. -/
theorem run_ok (alarm : Bool) (es : List Step) :
    ∃ s outs, jtagUart.run (reset alarm) es = .ok (s, outs) ∧ Inv s := by
  exact Machine.run_total (M := jtagUart) (A := fun _ => True) (fun s e h _ => step_total s e h) (reset_inv alarm)
    fun _ _ => trivial

theorem inv_of_run {alarm : Bool} {es : List Step} {s : Jtag} {outs : List Out}
    (hr : jtagUart.run (reset alarm) es = .ok (s, outs)) : Inv s :=
  Machine.run_inv (M := jtagUart) (fun _ _ _ _ h hs => step_inv h hs) (reset_inv alarm) hr

theorem received_run {alarm : Bool} {es : List Step} {s : Jtag} {outs : List Out}
    (hr : jtagUart.run (reset alarm) es = .ok (s, outs)) : received outs = returned outs ++ s.inFlight := by
  refine Machine.run_history (M := jtagUart)
    (I := fun _ s outs => received outs = returned outs ++ s.inFlight) rfl ?_ hr
  intro es s os e s' o hru hf hs
  rw [received_concat, returned_concat, hf, List.append_assoc, (step_rx (inv_of_run hru).rx hs).2, List.append_assoc]

theorem accepted_run {alarm : Bool} {es : List Step} {s : Jtag} {outs : List Out}
    (hr : jtagUart.run (reset alarm) es = .ok (s, outs)) :
    accepted outs ++ s.task.taken = transmitted outs ++ s.owed := by
  refine Machine.run_history (M := jtagUart)
    (I := fun _ s outs => accepted outs ++ s.task.taken = transmitted outs ++ s.owed) rfl ?_ hr
  intro es s os e s' o hru hf hs
  obtain ⟨-, l, htaken, howed⟩ := step_tx (inv_of_run hru).tx hs
  calc accepted (os ++ [o]) ++ s'.task.taken
      = accepted os ++ s.task.taken ++ l := by rw [accepted_concat, List.append_assoc, htaken, List.append_assoc]
    _ = transmitted os ++ (s.owed ++ l) := by rw [hf, List.append_assoc]
    _ = transmitted (os ++ [o]) ++ s'.owed := by rw [howed, transmitted_concat, List.append_assoc]

/-- **No byte of the host is lost, doubled or moved** on its way to the caller, wherever the interrupts
and the host come: what reads returned, then what is in flight, is what was taken from it. -/
theorem host_to_read (alarm : Bool) (es : List Step) :
    ∃ s outs, jtagUart.run (reset alarm) es = .ok (s, outs) ∧ received outs = returned outs ++ s.inFlight := by
  obtain ⟨s, outs, hr, -⟩ := run_ok alarm es
  exact ⟨s, outs, hr, received_run hr⟩

/-- **No byte of a write is lost, doubled or moved** on its way to the host, and the transmit FIFO
never overflows: what the writes took, the one under way included, is what the host took and then
what it is owed. -/
theorem write_to_host (alarm : Bool) (es : List Step) :
    ∃ s outs, jtagUart.run (reset alarm) es = .ok (s, outs) ∧ s.uart.woverflow = false ∧
      accepted outs ++ s.task.taken = transmitted outs ++ s.owed := by
  obtain ⟨s, outs, hr, h⟩ := run_ok alarm es
  exact ⟨s, outs, hr, h.tx.woverflow, accepted_run hr⟩

/-- **A caller that waits for data is woken**: while the ring buffer is empty, the receive interrupt is on
or about to be turned on by the read that emptied it. In particular it is on while a read waits. -/
theorem read_waits_armed (alarm : Bool) (es : List Step) :
    ∃ s outs, jtagUart.run (reset alarm) es = .ok (s, outs) ∧
      (s.rx.contents = [] → s.uart.ienAF = true ∨ s.task.willEnableRx) ∧
      ∀ c inp, s.task = .read c (.spin inp) → inp = s.rx.inp → s.uart.ienAF = true := by
  obtain ⟨s, outs, hr, h⟩ := run_ok alarm es
  have harmed : s.rx.contents = [] → s.uart.ienAF = true ∨ s.task.willEnableRx :=
    fun hnil => h.irq.rxArmed.imp_right fun hor => hor.resolve_left (not_not.2 hnil)
  refine ⟨s, outs, hr, harmed, ?_⟩
  intro c inp ht hinp
  have hwaits := h.irq.waits
  rw [ht] at hwaits
  obtain ⟨-, -, -, hout⟩ := hwaits
  have hnil : s.rx.contents = [] := (contents_eq_nil_iff _).2 (hinp ▸ hout)
  rw [ht] at harmed
  exact (harmed hnil).resolve_right id

/-- **A caller that waits for space is woken**: while there is something to send, the transmit interrupt is
on or about to be turned on by the write that put it there. While a write waits the buffer is full and the
interrupt is on. -/
theorem write_waits_armed (alarm : Bool) (es : List Step) :
    ∃ s outs, jtagUart.run (reset alarm) es = .ok (s, outs) ∧
      (s.tx.contents ≠ [] → s.uart.ienAE = true ∨ s.task.willEnableTx) ∧
      ∀ c out, s.task = .write c (.spin out) → out = s.tx.out →
        s.tx.contents.length + 1 = BUF_LEN ∧ s.uart.ienAE = true := by
  obtain ⟨s, outs, hr, h⟩ := run_ok alarm es
  have harmed : s.tx.contents ≠ [] → s.uart.ienAE = true ∨ s.task.willEnableTx :=
    fun hne => h.irq.txArmed.imp_right fun hor => hor.resolve_left hne
  refine ⟨s, outs, hr, harmed, ?_⟩
  intro c out ht hout
  have hwaits := h.irq.waits
  rw [ht] at hwaits
  obtain ⟨-, -, hlt, hd⟩ := hwaits
  rw [← hout, (dist_eq_zero_iff hlt).2 rfl, Nat.zero_add, ← length_contents] at hd
  have hne : s.tx.contents ≠ [] := by
    intro hnil
    rw [hnil] at hd
    exact absurd hd (by decide)
  rw [ht] at harmed
  exact ⟨hd, (harmed hne).resolve_right id⟩

/-! ## The interrupt routine ends -/

/-- What is left for it to do: free slots to fill, bytes to send, interrupts to turn off. -/
def pending (s : Jtag) : Nat :=
  BUF_LEN - 1 - s.rx.count + s.tx.count + s.uart.ienAF.toNat + s.uart.ienAE.toNat

/-- The statements from here to the end of a pass, each inner loop taken once. -/
def IsrPc.toEnd : IsrPc → Nat
  | .top => 0
  | .rxCheck _ _ => 7
  | .rxPop _ => 6
  | .rxData _ => 5
  | .rxDone _ _ => 4
  | .tx _ => 3
  | .txLoop _ | .timeout => 2
  | .txDone _ | .timeoutClear => 1

/-- The pass will still get something done. -/
def Promising (u : Uart) : IsrPc → Prop
  | .top => False
  | .rxCheck _ data => u.ienAF = true ∧ data &&& DATA_RAVAIL_MSK ≠ 0#32 ∧ u.rfifo.bytes ≠ []
  | .rxPop _ => u.rfifo.bytes ≠ []
  | .rxData _ => u.rvalid = true
  | .rxDone _ data => u.ienAF = true ∧ data &&& DATA_RAVAIL_MSK ≠ 0#32
  | .tx control => u.ienAE = true ∧ control &&& CONTROL_WI_MSK ≠ 0#32 ∧
      0 < ((control &&& CONTROL_WSPACE_MSK) >>> CONTROL_WSPACE_OFST).toNat
  | .txLoop space | .txDone space => u.ienAE = true ∧ 0 < space
  | .timeout | .timeoutClear => True

/-- At most `k` statements are left. A pass is paid for by the first thing it gets done. -/
def Within (s : Jtag) (k : Nat) : Prop :=
  match s.isr with
  | none => True
  | some pc => 12 * (pending s + 1) + pc.toEnd ≤ k ∨ 12 * pending s + pc.toEnd + 4 ≤ k ∧ Promising s.uart pc

theorem disabled_rx (w : BitVec 32) : (w &&& ~~~CONTROL_RE_MSK).getLsbD 0 = false := by
  simp [CONTROL_RE_MSK]

theorem disabled_tx (w : BitVec 32) : (w &&& ~~~CONTROL_WE_MSK).getLsbD 1 = false := by
  simp [CONTROL_WE_MSK]

theorem pending_disable_rx {s : Jtag} (h : UartInv s.uart s.irqEnable 0) (isr : Option IsrPc) :
    pending { s.setIrqEnable (s.irqEnable &&& ~~~CONTROL_RE_MSK) with isr } + s.uart.ienAF.toNat = pending s := by
  have hae : (s.irqEnable &&& ~~~CONTROL_RE_MSK).getLsbD 1 = s.uart.ienAE := by rw [disable_rx, h.ienAE]
  have haf := disabled_rx s.irqEnable
  simp only [pending, setIrqEnable, Uart.writeControl, Uart.clock, hae, haf, Bool.toNat_false]
  omega

theorem pending_disable_tx {s : Jtag} (h : UartInv s.uart s.irqEnable 0) (isr : Option IsrPc) :
    pending { s.setIrqEnable (s.irqEnable &&& ~~~CONTROL_WE_MSK) with isr } + s.uart.ienAE.toNat = pending s := by
  have haf : (s.irqEnable &&& ~~~CONTROL_WE_MSK).getLsbD 0 = s.uart.ienAF := by rw [disable_tx, h.ienAF]
  have hae := disabled_tx s.irqEnable
  simp only [pending, setIrqEnable, Uart.writeControl, Uart.clock, hae, haf, Bool.toNat_false]
  omega

theorem pending_store {s : Jtag} {rx : RingBuffer UInt8 BUF_LEN} {x : UInt8} (hc : rx.contents = s.rx.contents ++ [x])
    (uart : Uart) (haf : uart.ienAF = s.uart.ienAF) (hae : uart.ienAE = s.uart.ienAE) (isr : Option IsrPc) :
    pending { s with uart, rx, isr } + 1 = pending s := by
  have hlen : rx.count = s.rx.count + 1 := by
    rw [← length_contents, hc, List.length_append, length_contents]
    rfl
  have hlt := rx.count_lt
  simp only [pending, haf, hae]
  omega

theorem pending_send {s : Jtag} (hcount : 1 ≤ s.tx.count) (c : UInt8) (isr : Option IsrPc) :
    pending { s with uart := s.uart.writeData c, tx := s.tx.setOut (s.tx.out + 1), isr } + 1 = pending s := by
  simp only [pending, count_setOut s.tx hcount, Uart.writeData, Uart.clock]
  omega

/-- A statement that goes on towards the end of the pass, or that gets something done. -/
theorem Within.step {s s' : Jtag} {pc pc' : IsrPc} {k : Nat} (hw : Within s k) (hi : s.isr = some pc)
    (hi' : s'.isr = some pc') (hp : pending s' ≤ pending s)
    (hlt : pc'.toEnd < pc.toEnd ∨ pending s' < pending s ∧ pc'.toEnd ≤ pc.toEnd + 3)
    (hprom : Promising s.uart pc → Promising s'.uart pc' ∨ pending s' < pending s) :
    ∃ k', k' + 1 ≤ k ∧ Within s' k' := by
  unfold Within at hw
  rw [hi] at hw
  dsimp only at hw
  refine ⟨k - 1, by omega, ?_⟩
  unfold Within
  rw [hi']
  rcases hw with hk | ⟨hk, hpr⟩
  · exact .inl (by omega)
  · rcases hprom hpr with hpr' | hless
    · by_cases hless : pending s' < pending s
      · exact .inl (by omega)
      · exact .inr ⟨by omega, hpr'⟩
    · exact .inl (by omega)

theorem Within.pos {s : Jtag} {pc : IsrPc} {k : Nat} (hw : Within s k) (hi : s.isr = some pc) : k - 1 + 1 ≤ k := by
  unfold Within at hw
  rw [hi] at hw
  dsimp only at hw
  omega

theorem isrStep_within {s s' : Jtag} {pc : IsrPc} {k : Nat} (h : Inv s) (hw : Within s k) (hi : s.isr = some pc)
    (hs : s.isrStep pc = .ok s') : ∃ k', k' + 1 ≤ k ∧ Within s' k' := by
  have huart := h.irq.uart
  have hroom := h.rx.room
  rw [hi] at huart hroom
  cases pc with
  | top =>
    unfold Within at hw
    rw [hi] at hw
    have hk : 12 * (pending s + 1) ≤ k := hw.resolve_right And.right
    simp only [isrStep] at hs
    split at hs
    · cases hs
      exact ⟨0, by omega, trivial⟩
    · next hirq =>
      split at hs <;> cases hs
      · next hri =>
        obtain ⟨hen, hne⟩ := huart.rfifo_ne_nil ((Uart.controlWord_ri s.uart).1 hri)
        refine ⟨k - 1, by omega, .inr ⟨?_, hen, by decide, hne⟩⟩
        show 12 * pending s + 7 + 4 ≤ k - 1
        omega
      · next hri =>
        have hwi : s.uart.ipenAE = true := by
          rw [Uart.controlWord_irq, Bool.not_eq_false, Uart.irq, Bool.or_eq_true] at hirq
          exact hirq.resolve_right fun haf => hri ((Uart.controlWord_ri s.uart).2 haf)
        obtain ⟨hen, hpos⟩ := huart.wspace_pos hwi
        refine ⟨k - 1, by omega, .inr ⟨?_, hen, (Uart.controlWord_wi s.uart).2 hwi, hpos⟩⟩
        show 12 * pending s + 3 + 4 ≤ k - 1
        omega
  | rxCheck control data =>
    simp only [isrStep] at hs
    split at hs <;> cases hs
    · exact hw.step hi rfl (Nat.le_refl _) (.inl (by simp [IsrPc.toEnd])) fun hpr => .inl ⟨hpr.1, hpr.2.1⟩
    · exact hw.step hi rfl (Nat.le_refl _) (.inl (by simp [IsrPc.toEnd])) fun hpr => .inl hpr.2.2
  | rxPop control =>
    cases hs
    refine hw.step hi rfl (Nat.le_refl _) (.inl (by simp [IsrPc.toEnd])) fun hpr => .inl ?_
    exact decide_eq_true fun hz => hpr (List.length_eq_zero_iff.1 hz)
  | rxData control =>
    simp only [isrStep] at hs
    split at hs
    · next hv =>
      cases hs
      refine hw.step hi rfl (Nat.le_refl _) (.inl (by simp [IsrPc.toEnd])) fun hpr => ?_
      exact absurd ((Uart.dataWord_rvalid s.uart).2 hpr) (not_not.2 hv)
    · obtain ⟨rx, hput, -, -, hc⟩ := s.rx.push hroom (.ofBitVec ((s.uart.dataWord &&& DATA_DATA_MSK).setWidth 8))
      rw [hput] at hs
      cases hs
      have hp := pending_store hc s.uart.clock rfl rfl (some (.rxCheck control s.uart.dataWord))
      have hless := Nat.lt_of_succ_le hp.le
      exact hw.step hi rfl hless.le (.inr ⟨hless, Nat.le_succ _⟩) fun _ => .inr hless
  | rxDone control data =>
    simp only [isrStep] at hs
    split at hs <;> cases hs
    · have hp := pending_disable_rx huart (some (.tx control))
      refine hw.step hi rfl (hp ▸ Nat.le_add_right _ _) (.inl (by simp [IsrPc.toEnd])) fun hpr => .inr ?_
      rw [← hp, hpr.1]
      exact Nat.lt_succ_self _
    · next hz =>
      exact hw.step hi rfl (Nat.le_refl _) (.inl (by simp [IsrPc.toEnd])) fun hpr => absurd hpr.2 hz
  | tx control =>
    simp only [isrStep] at hs
    split at hs <;> cases hs
    · exact hw.step hi rfl (Nat.le_refl _) (.inl (by simp [IsrPc.toEnd])) fun hpr => .inl ⟨hpr.1, hpr.2.2⟩
    · next hz =>
      exact hw.step hi rfl (Nat.le_refl _) (.inl (by simp [IsrPc.toEnd])) fun hpr => absurd hpr.2.1 hz
  | txLoop space =>
    simp only [isrStep] at hs
    split at hs
    · next hgo =>
      have hcount : 1 ≤ s.tx.count := by
        rw [← length_contents]
        exact List.length_pos_iff.2 fun hnil => hgo.2 ((contents_eq_nil_iff s.tx).1 hnil).symm
      cases hg : s.tx.get s.tx.out with
      | error e => rw [hg] at hs; cases hs
      | ok c =>
        rw [hg] at hs
        cases hs
        have hless := Nat.lt_of_succ_le (pending_send hcount c (some (.txLoop (space - 1)))).le
        exact hw.step hi rfl hless.le (.inr ⟨hless, Nat.le_add_right _ _⟩) fun _ => .inr hless
    · cases hs
      exact hw.step hi rfl (Nat.le_refl _) (.inl (by simp [IsrPc.toEnd])) .inl
  | txDone space =>
    simp only [isrStep] at hs
    split at hs <;> cases hs
    · have hp := pending_disable_tx huart (some .top)
      refine hw.step hi rfl (hp ▸ Nat.le_add_right _ _) (.inl (by simp [IsrPc.toEnd])) fun hpr => .inr ?_
      rw [← hp, hpr.1]
      exact Nat.lt_succ_self _
    · next hz =>
      exact hw.step hi rfl (Nat.le_refl _) (.inl (by simp [IsrPc.toEnd])) fun hpr => absurd hpr.2 hz
  | timeout =>
    simp only [isrStep] at hs
    split at hs
    · cases hs
      exact hw.step hi rfl (Nat.le_refl _) (.inl (by simp [IsrPc.toEnd])) fun _ => .inl trivial
    · split at hs <;> cases hs <;> exact ⟨k - 1, hw.pos hi, trivial⟩
  | timeoutClear =>
    cases hs
    exact ⟨k - 1, hw.pos hi, trivial⟩

/-- What the host does meanwhile takes nothing away. -/
theorem Within.keep {s : Jtag} {k : Nat} (hw : Within s k) {uart : Uart} (haf : uart.ienAF = s.uart.ienAF)
    (hae : uart.ienAE = s.uart.ienAE) (hv : uart.rvalid = s.uart.rvalid)
    (hne : s.uart.rfifo.bytes ≠ [] → uart.rfifo.bytes ≠ []) : Within { s with uart } k := by
  have hp : pending { s with uart } = pending s := by
    simp only [pending, haf, hae]
  unfold Within at *
  rw [hp]
  dsimp only
  cases hi : s.isr with
  | none => trivial
  | some pc =>
    rw [hi] at hw
    refine hw.imp_right (And.imp_right fun hpr => ?_)
    cases pc with
    | top => exact hpr
    | rxCheck control data => exact ⟨haf ▸ hpr.1, hpr.2.1, hne hpr.2.2⟩
    | rxPop control => exact hne hpr
    | rxData control => exact hv.trans hpr
    | rxDone control data => exact ⟨haf.trans hpr.1, hpr.2⟩
    | tx control => exact ⟨hae.trans hpr.1, hpr.2⟩
    | txLoop space | txDone space => exact ⟨hae.trans hpr.1, hpr.2⟩
    | timeout | timeoutClear => trivial

theorem step_within {s s' : Jtag} {e : Step} {o : Out} {k : Nat} (h : Inv s) (hw : Within s k) (hrun : s.isr ≠ none)
    (hs : s.step e = .ok (s', o)) : ∃ k', k' + (decide (e = .cpu)).toNat ≤ k ∧ Within s' k' := by
  obtain ⟨pc, hi⟩ := Option.ne_none_iff_exists'.1 hrun
  cases e with
  | cpu =>
    simp only [Jtag.step, hi] at hs
    cases hr : s.isrStep pc with
    | error e => rw [hr] at hs; cases hs
    | ok s₁ =>
      rw [hr] at hs
      cases hs
      exact isrStep_within h hw hi hr
  | irq | tick | read space nonblock | write data nonblock =>
    simp only [Jtag.step, hi] at hs
    cases hs
    exact ⟨k, Nat.le_refl _, hw⟩
  | hostSend c =>
    cases hs
    refine ⟨k, Nat.le_refl _, hw.keep rfl rfl rfl fun hne => ?_⟩
    simp only [Uart.hostSend, Fifo.push]
    split
    · exact List.append_ne_nil_of_left_ne_nil hne _
    · exact hne
  | hostPause | hostTake | clock =>
    cases hs
    exact ⟨k, Nat.le_refl _, hw.keep rfl rfl rfl id⟩

/-- A full receive buffer to fill, a full transmit buffer to empty, and both interrupts on. -/
def ISR_STATEMENTS : Nat := 12 * (2 * BUF_LEN + 1) + 7

theorem within_max (s : Jtag) : Within s ISR_STATEMENTS := by
  unfold Within
  split
  · trivial
  · next pc _ =>
    left
    have hlen : BUF_LEN = 2048 := rfl
    have htx := s.tx.count_lt
    have haf := Bool.toNat_le s.uart.ienAF
    have hae := Bool.toNat_le s.uart.ienAE
    have hend : pc.toEnd ≤ 7 := by cases pc <;> simp [IsrPc.toEnd]
    unfold pending ISR_STATEMENTS
    omega

/-- **The interrupt routine ends**: after so many statements of the processor, it has returned, whatever
the host sends, takes and pauses meanwhile. -/
theorem isr_returns (alarm : Bool) (es es' : List Step) (h : ISR_STATEMENTS < es'.count .cpu) :
    ∃ j s outs, jtagUart.run (reset alarm) (es ++ es'.take j) = .ok (s, outs) ∧ s.isr = none := by
  obtain ⟨s, outs, hr, hs⟩ := run_ok alarm es
  by_cases hi : s.isr = none
  · exact ⟨0, s, outs, by rw [List.take_zero, List.append_nil]; exact hr, hi⟩
  have htally : jtagUart.tally (fun _ e => decide (e = .cpu)) s es' = es'.count .cpu :=
    Machine.tally_eq_countP (M := jtagUart) step_total (fun e => decide (e = .cpu)) hs
  have hstep : ∀ s e s' o k, Inv s → s.isr ≠ none ∧ Within s k → jtagUart.step s e = .ok (s', o) →
      s'.isr = none ∨ ∃ k', k' + (decide (e = .cpu)).toNat ≤ k ∧ s'.isr ≠ none ∧ Within s' k' := by
    rintro s e s' o k hs ⟨hrun, hw⟩ hstep
    by_cases hd : s'.isr = none
    · exact .inl hd
    · obtain ⟨k', hle, hw'⟩ := step_within hs hw hrun hstep
      exact .inr ⟨k', hle, hd, hw'⟩
  obtain ⟨j, t, os, o, hr', ht, -⟩ := Machine.run_reaches (M := jtagUart) (F := fun s _ => s.isr = none)
    (A := fun _ e => decide (e = .cpu)) (W := fun s k => s.isr ≠ none ∧ Within s k) step_total hstep hs
    ⟨hi, within_max s⟩ (htally ▸ h)
  exact ⟨j, t, _, Machine.run_append.2 ⟨s, outs, _, hr, hr', rfl⟩, ht⟩

/-- The interrupt routine has just begun, and the device has a byte for it. -/
theorem isr_returns_cpu : (∃ s outs, jtagUart.run (reset true) [.cpu, .hostSend 65, .hostPause, .irq] = .ok (s, outs) ∧
      s.isr = some .top ∧ s.uart.rfifo.bytes = [65]) ∧
    ∃ j s outs, jtagUart.run (reset true)
        ([.cpu, .hostSend 65, .hostPause, .irq] ++ (List.replicate (ISR_STATEMENTS + 1) Step.cpu).take j) =
      .ok (s, outs) ∧ s.isr = none :=
  ⟨⟨_, _, rfl, rfl, rfl⟩, isr_returns true [.cpu, .hostSend 65, .hostPause, .irq]
    (List.replicate (ISR_STATEMENTS + 1) .cpu) (by rw [List.count_replicate_self]; exact Nat.lt_succ_self _)⟩

end Jtag
end NuttyNios
