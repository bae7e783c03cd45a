import NuttyNios.JtagTx
/-!
# The interrupts of the driver

The driver turns the receive interrupt off when its buffer is full and the transmit interrupt off when
it has nothing to send. `RxArmed` and `TxArmed` say that it is on again when it is needed. What they
rest on is in `UartInv` (an interrupt means that there is something to do), `RxDue` and `TxDrained`
(turning one off means that the buffer is not empty, or that it is), and `Waits`.
-/

namespace NuttyNios
open Buffer RingBuffer

/-! ## The device, as the interrupt routine finds it -/

/-- `w` is the driver's copy of the interrupt enables, and `k` how many bytes have been popped since the
last clock edge. -/
structure UartInv (u : Uart) (w : BitVec 32) (k : Nat) : Prop where
  ienAF : u.ienAF = w.getLsbD 0
  ienAE : u.ienAE = w.getLsbD 1
  fifoAE : u.fifoAE = true → u.wfifo.bytes.length ≤ 8
  fifoAF : u.fifoAF = true → 56 ≤ u.rfifo.bytes.length + k
  pauseIrq : u.pauseIrq = true → u.rfifo.bytes ≠ []

theorem Uart.almost_full {f : Fifo} (h : 64 - f.used ≤ 8) : 56 ≤ f.bytes.length := by
  unfold Fifo.used at h
  omega

namespace UartInv

variable {u : Uart} {w : BitVec 32} {k : Nat}

theorem clock (h : UartInv u w k) : UartInv u.clock w 0 where
  ienAF := h.ienAF
  ienAE := h.ienAE
  fifoAE := fun hae => of_decide_eq_true hae
  fifoAF := fun haf => Uart.almost_full (of_decide_eq_true haf)
  pauseIrq := h.pauseIrq

theorem writeControl (h : UartInv u w k) {v : BitVec 32} {w' : BitVec 32} (h0 : v.getLsbD 0 = w'.getLsbD 0)
    (h1 : v.getLsbD 1 = w'.getLsbD 1) : UartInv (u.writeControl v) w' 0 where
  ienAF := h0
  ienAE := h1
  fifoAE := fun hae => of_decide_eq_true hae
  fifoAF := fun haf => Uart.almost_full (of_decide_eq_true haf)
  pauseIrq := h.pauseIrq

theorem writeData (h : UartInv u w k) (c : UInt8) : UartInv (u.writeData c) w 0 where
  ienAF := h.ienAF
  ienAE := h.ienAE
  fifoAE := fun hae => of_decide_eq_true hae
  fifoAF := fun haf => Uart.almost_full (of_decide_eq_true haf)
  pauseIrq := h.pauseIrq

theorem popData (h : UartInv u w 0) : UartInv u.popData w 1 where
  ienAF := h.ienAF
  ienAE := h.ienAE
  fifoAE := h.fifoAE
  fifoAF := by
    intro haf
    have hle := h.fifoAF haf
    simp only [Uart.popData, Fifo.pop, List.length_tail]
    omega
  pauseIrq := by simp [Uart.popData]

theorem hostSend (h : UartInv u w k) (c : UInt8) : UartInv (u.hostSend c) w k where
  ienAF := h.ienAF
  ienAE := h.ienAE
  fifoAE := h.fifoAE
  fifoAF := by
    intro haf
    have hle := h.fifoAF haf
    simp only [Uart.hostSend, Fifo.push]
    split
    · rw [List.length_append]
      omega
    · exact hle
  pauseIrq := by
    intro hp
    have hne := h.pauseIrq hp
    simp only [Uart.hostSend, Fifo.push]
    split
    · exact List.append_ne_nil_of_left_ne_nil hne _
    · exact hne

theorem hostPause (h : UartInv u w k) : UartInv u.hostPause w k where
  ienAF := h.ienAF
  ienAE := h.ienAE
  fifoAE := h.fifoAE
  fifoAF := h.fifoAF
  pauseIrq := by
    simp only [Uart.hostPause, Bool.or_eq_true, decide_eq_true_eq]
    rintro (hp | hne)
    · exact h.pauseIrq hp
    · exact fun hnil => hne (List.length_eq_zero_iff.2 hnil)

theorem hostTake (h : UartInv u w k) : UartInv u.hostTake w k where
  ienAF := h.ienAF
  ienAE := h.ienAE
  fifoAE := by
    intro hae
    have hle := h.fifoAE hae
    simp only [Uart.hostTake, Fifo.pop, List.length_tail]
    omega
  fifoAF := h.fifoAF
  pauseIrq := h.pauseIrq

theorem mono (h : UartInv u w 0) : UartInv u w k :=
  { h with fifoAF := fun haf => (h.fifoAF haf).trans (Nat.le_add_right _ _) }

/-- A receive interrupt means that there is something to receive. -/
theorem rfifo_ne_nil (h : UartInv u w 0) (hi : u.ipenAF = true) : u.ienAF = true ∧ u.rfifo.bytes ≠ [] := by
  simp only [Uart.ipenAF, Bool.and_eq_true, Bool.or_eq_true] at hi
  refine ⟨hi.1, ?_⟩
  rcases hi.2 with hp | haf
  · exact h.pauseIrq hp
  · have hle := h.fifoAF haf
    intro hnil
    rw [hnil] at hle
    simp at hle

/-- A transmit interrupt means that there is space to send. -/
theorem wspace_pos (h : UartInv u w k) (hi : u.ipenAE = true) :
    u.ienAE = true ∧ 0 < ((u.controlWord &&& CONTROL_WSPACE_MSK) >>> CONTROL_WSPACE_OFST).toNat := by
  simp only [Uart.ipenAE, Bool.and_eq_true] at hi
  have hle := h.fifoAE hi.2
  rw [Uart.controlWord_wspace]
  exact ⟨hi.1, by omega⟩

end UartInv

namespace Jtag

/-- Between the two cycles of a read of the data register, a byte has been popped. -/
def popping : Option IsrPc → Nat
  | some (.rxData _) => 1
  | _ => 0

/-- When the routine leaves the inner loop the ring buffer holds something, and there is something to put
into it when it enters. -/
def RxDue (u : Uart) (rx : RingBuffer UInt8 BUF_LEN) : Option IsrPc → Prop
  | some (.rxCheck _ _) | some (.rxPop _) => u.rfifo.bytes ≠ [] ∨ rx.contents ≠ []
  | some (.rxData _) => u.rvalid = true ∨ rx.contents ≠ []
  | some (.rxDone _ _) => rx.contents ≠ []
  | _ => True

/-- Leaving the transmit loop with space left means that there is nothing to send. -/
def TxDrained (tx : RingBuffer UInt8 BUF_LEN) : Option IsrPc → Prop
  | some (.txDone space) => 0 < space → tx.contents = []
  | _ => True

/-- A read that has taken something and will turn the receive interrupt on. -/
def Task.willEnableRx : Task → Prop
  | .init _ => True
  | .read _ (.spin _) | .read _ (.recheck _) | .read _ .ret => False
  | .read c _ => c.got ≠ []
  | _ => False

/-- A write that will turn the transmit interrupt on. -/
def Task.willEnableTx : Task → Prop
  | .write _ (.spin _) | .write _ .active | .write _ .ret => False
  | .write _ _ => True
  | _ => False

/-- The receive interrupt is on, or there is something to read first. -/
def RxArmed (s : Jtag) : Prop := s.uart.ienAF = true ∨ s.rx.contents ≠ [] ∨ s.task.willEnableRx

/-- The transmit interrupt is on, or there is nothing to send. -/
def TxArmed (s : Jtag) : Prop := s.uart.ienAE = true ∨ s.tx.contents = [] ∨ s.task.willEnableTx

/-- What a call knows where it goes round its loops: there is space or data left, each `memcpy` is of
something, and a caller that waits has seen the buffer empty, or full. -/
def Waits (rx tx : RingBuffer UInt8 BUF_LEN) : Task → Prop
  | .read c .loadIn | .read c (.loadOut _) => 0 < c.space
  | .read c (.copy _ _ n chunk) => 0 < n ∧ n ≤ c.space ∧ chunk.length ≤ n
  | .read c (.publish _ _ chunk) => chunk ≠ [] ∧ chunk.length ≤ c.space
  | .read c (.check inp) => c.got = [] → 0 < c.space ∧ inp = rx.out
  | .read c (.spin inp) | .read c (.recheck inp) => c.got = [] ∧ c.nonblock = false ∧ 0 < c.space ∧ inp = rx.out
  | .read c .enable => c.got ≠ []
  | .write c .loadIn | .write c (.loadOut _) => 0 < c.count
  | .write _ (.copy _ _ n _) | .write _ (.publish _ _ n) => 0 < n
  | .write c (.enable out) => 0 < c.count → out < BUF_LEN ∧ dist BUF_LEN out tx.out + tx.count + 1 = BUF_LEN
  | .write c (.spin out) =>
    0 < c.count ∧ c.nonblock = false ∧ out < BUF_LEN ∧ dist BUF_LEN out tx.out + tx.count + 1 = BUF_LEN
  | .write c .active => 0 < c.count ∧ c.nonblock = false
  | .init _ => tx.contents = []
  | _ => True

structure IrqInv (s : Jtag) : Prop where
  uart : UartInv s.uart s.irqEnable (popping s.isr)
  due : RxDue s.uart s.rx s.isr
  drained : TxDrained s.tx s.isr
  waits : Waits s.rx s.tx s.task
  rxArmed : RxArmed s
  txArmed : TxArmed s

/-- Only `rx_out` matters to a caller that waits for `rx_in`. -/
theorem Waits.receive {rx rx' tx : RingBuffer UInt8 BUF_LEN} {t : Task} (h : Waits rx tx t) (ho : rx'.out = rx.out) :
    Waits rx' tx t := by
  match t, h with
  | .read _ (.check _), h => exact fun hg => ⟨(h hg).1, ho ▸ (h hg).2⟩
  | .read _ (.spin _), ⟨hg, hb, hs, hi⟩ | .read _ (.recheck _), ⟨hg, hb, hs, hi⟩ => exact ⟨hg, hb, hs, ho ▸ hi⟩
  | .read _ .loadIn, h | .read _ (.loadOut _), h | .read _ (.copy _ _ _ _), h | .read _ (.publish _ _ _), h
  | .read _ .enable, h | .read _ .ret, h => exact h
  | .init _, h | .idle, h | .write _ .loadIn, h | .write _ (.loadOut _), h | .write _ (.copy _ _ _ _), h
  | .write _ (.publish _ _ _), h | .write _ (.enable _), h | .write _ (.spin _), h | .write _ .active, h
  | .write _ .ret, h => exact h

/-- `tx_out` has moved on by as much as the buffer has become emptier, which is less than once round. -/
theorem consume_dist {tx : RingBuffer UInt8 BUF_LEN} {out : Nat} (ho : out < BUF_LEN) (hc : 1 ≤ tx.count)
    (h : dist BUF_LEN out tx.out + tx.count + 1 = BUF_LEN) :
    dist BUF_LEN out (tx.setOut (tx.out + 1)).out + (tx.setOut (tx.out + 1)).count + 1 = BUF_LEN := by
  rw [count_setOut tx hc, setOut_out, dist_add_mod ho tx.out_lt (by omega)]
  omega

theorem Waits.transmit {rx tx : RingBuffer UInt8 BUF_LEN} {t : Task} (h : Waits rx tx t) (hc : 1 ≤ tx.count) :
    Waits rx (tx.setOut (tx.out + 1)) t := by
  match t, h with
  | .write _ (.enable _), h => exact fun hp => ⟨(h hp).1, consume_dist (h hp).1 hc (h hp).2⟩
  | .write _ (.spin _), ⟨hp, hb, ho, hd⟩ => exact ⟨hp, hb, ho, consume_dist ho hc hd⟩
  | .write _ .loadIn, h | .write _ (.loadOut _), h | .write _ (.copy _ _ _ _), h | .write _ (.publish _ _ _), h
  | .write _ .active, h | .write _ .ret, h => exact h
  | .init _, h =>
    show (tx.setOut (tx.out + 1)).contents = []
    rw [contents_setOut tx hc, h, List.drop_nil]
  | .idle, h | .read _ .loadIn, h | .read _ (.loadOut _), h | .read _ (.copy _ _ _ _), h
  | .read _ (.publish _ _ _), h | .read _ (.check _), h | .read _ (.spin _), h | .read _ (.recheck _), h
  | .read _ .enable, h | .read _ .ret, h => exact h

/-! ## The interrupt routine -/

theorem disable_rx (w : BitVec 32) : (w &&& ~~~CONTROL_RE_MSK).getLsbD 1 = w.getLsbD 1 := by
  simp [CONTROL_RE_MSK]

theorem disable_tx (w : BitVec 32) : (w &&& ~~~CONTROL_WE_MSK).getLsbD 0 = w.getLsbD 0 := by
  simp [CONTROL_WE_MSK]

theorem enable_rx (w : BitVec 32) :
    (w ||| CONTROL_RE_MSK).getLsbD 0 = true ∧ (w ||| CONTROL_RE_MSK).getLsbD 1 = w.getLsbD 1 := by
  simp [CONTROL_RE_MSK]

theorem enable_tx (w : BitVec 32) :
    (w ||| CONTROL_WE_MSK).getLsbD 1 = true ∧ (w ||| CONTROL_WE_MSK).getLsbD 0 = w.getLsbD 0 := by
  simp [CONTROL_WE_MSK]

theorem clear_ac (w : BitVec 32) :
    (w ||| CONTROL_AC_MSK).getLsbD 0 = w.getLsbD 0 ∧ (w ||| CONTROL_AC_MSK).getLsbD 1 = w.getLsbD 1 := by
  simp [CONTROL_AC_MSK]

theorem isrStep_irq {s s' : Jtag} {pc : IsrPc} (h : IrqInv s) (hr : RxInv s) (hi : s.isr = some pc)
    (hs : s.isrStep pc = .ok s') : IrqInv s' := by
  obtain ⟨huart, hdue, hdrained, hwaits, hrx, htx⟩ := h
  obtain ⟨-, hroom⟩ := hr
  obtain ⟨uart, timeout, irqEnable, hostInactive, rx, tx, isr, task⟩ := s
  obtain rfl : isr = some pc := hi
  change UartInv uart irqEnable (popping (some pc)) at huart
  change RxDue uart rx (some pc) at hdue
  change TxDrained tx (some pc) at hdrained
  change Waits rx tx task at hwaits
  change uart.ienAF = true ∨ rx.contents ≠ [] ∨ task.willEnableRx at hrx
  change uart.ienAE = true ∨ tx.contents = [] ∨ task.willEnableTx at htx
  cases pc with
  | top =>
    simp only [isrStep] at hs
    split at hs
    · cases hs
      exact ⟨huart.clock, trivial, trivial, hwaits, hrx, htx⟩
    · split at hs <;> cases hs
      · next hri =>
        have hne := (huart.rfifo_ne_nil ((Uart.controlWord_ri uart).1 hri)).2
        exact ⟨huart.clock, .inl hne, trivial, hwaits, hrx, htx⟩
      · exact ⟨huart.clock, trivial, trivial, hwaits, hrx, htx⟩
  | rxCheck control data =>
    simp only [isrStep] at hs
    split at hs <;> cases hs
    · next hfull =>
      have hne : rx.contents ≠ [] := by
        have hcount := (full_iff rx).1 hfull
        rw [← List.length_pos_iff, length_contents]
        have hlen : BUF_LEN = 2048 := rfl
        omega
      exact ⟨huart, hne, trivial, hwaits, hrx, htx⟩
    · exact ⟨huart, hdue, trivial, hwaits, hrx, htx⟩
  | rxPop control =>
    cases hs
    refine ⟨huart.popData, hdue.imp_left ?_, trivial, hwaits, hrx, htx⟩
    intro hne
    exact decide_eq_true fun hz => hne (List.length_eq_zero_iff.1 hz)
  | rxData control =>
    simp only [isrStep] at hs
    split at hs
    · next hv =>
      cases hs
      have hrv : uart.rvalid = false := by
        rw [← Bool.not_eq_true, ← Uart.dataWord_rvalid, not_not]
        exact hv
      have hne : rx.contents ≠ [] := hdue.resolve_left (by rw [hrv]; exact Bool.false_ne_true)
      exact ⟨huart.clock, hne, trivial, hwaits, hrx, htx⟩
    · obtain ⟨rx', hput, hin, hout, hc⟩ := rx.push hroom (.ofBitVec ((uart.dataWord &&& DATA_DATA_MSK).setWidth 8))
      rw [hput] at hs
      cases hs
      have hne : (rx'.setIn (rx.inp + 1)).contents ≠ [] := by
        rw [hc]
        exact List.append_ne_nil_of_right_ne_nil _ (List.cons_ne_nil _ _)
      exact ⟨huart.clock, .inr hne, trivial, hwaits.receive hout, .inr (.inl hne), htx⟩
  | rxDone control data =>
    simp only [isrStep] at hs
    split at hs <;> cases hs
    · refine ⟨huart.writeControl rfl rfl, trivial, trivial, hwaits, .inr (.inl hdue), ?_⟩
      show (irqEnable &&& ~~~CONTROL_RE_MSK).getLsbD 1 = true ∨ _
      rw [disable_rx, ← huart.ienAE]
      exact htx
    · exact ⟨huart, trivial, trivial, hwaits, hrx, htx⟩
  | tx control =>
    simp only [isrStep] at hs
    split at hs <;> cases hs <;> exact ⟨huart, trivial, trivial, hwaits, hrx, htx⟩
  | txLoop space =>
    simp only [isrStep] at hs
    split at hs
    · next hgo =>
      have hcount : 1 ≤ tx.count := by
        rw [← length_contents]
        exact List.length_pos_iff.2 fun hnil => hgo.2 ((contents_eq_nil_iff tx).1 hnil).symm
      cases hg : tx.get tx.out with
      | error e => rw [hg] at hs; cases hs
      | ok c =>
        rw [hg] at hs
        cases hs
        refine ⟨huart.writeData c, trivial, trivial, hwaits.transmit hcount, hrx, htx.imp_right (.imp_left ?_)⟩
        intro hnil
        rw [contents_setOut tx hcount, hnil, List.drop_nil]
    · next hstop =>
      cases hs
      refine ⟨huart, trivial, ?_, hwaits, hrx, htx⟩
      intro hpos
      rw [contents_eq_nil_iff]
      exact (not_not.1 fun hne => hstop ⟨hpos, hne⟩).symm
  | txDone space =>
    simp only [isrStep] at hs
    split at hs <;> cases hs
    · next hpos =>
      refine ⟨huart.writeControl rfl rfl, trivial, trivial, hwaits, ?_, .inr (.inl (hdrained hpos))⟩
      show (irqEnable &&& ~~~CONTROL_WE_MSK).getLsbD 0 = true ∨ _
      rw [disable_tx, ← huart.ienAF]
      exact hrx
    · exact ⟨huart, trivial, trivial, hwaits, hrx, htx⟩
  | timeout =>
    simp only [isrStep] at hs
    split_ifs at hs <;> cases hs <;> exact ⟨huart.clock, trivial, trivial, hwaits, hrx, htx⟩
  | timeoutClear =>
    cases hs
    have hac := clear_ac irqEnable
    refine ⟨huart.writeControl hac.1 hac.2, trivial, trivial, hwaits, ?_, ?_⟩
    · show (irqEnable ||| CONTROL_AC_MSK).getLsbD 0 = true ∨ _
      rw [hac.1, ← huart.ienAF]
      exact hrx
    · show (irqEnable ||| CONTROL_AC_MSK).getLsbD 1 = true ∨ _
      rw [hac.2, ← huart.ienAE]
      exact htx

/-! ## The caller -/

theorem readStep_irq {s s' : Jtag} {c : ReadCall} {pc : ReadPc} {o : Out} (h : IrqInv s) (hr : RxInv s)
    (hi : s.isr = none) (ht : s.task = .read c pc) (hs : s.readStep c pc = .ok (s', o)) : IrqInv s' := by
  obtain ⟨huart, -, -, hwaits, hrx, htx⟩ := h
  obtain ⟨hread, -⟩ := hr
  obtain ⟨uart, timeout, irqEnable, hostInactive, rx, tx, isr, task⟩ := s
  obtain rfl : isr = none := hi
  obtain rfl : task = .read c pc := ht
  change Reading rx (.read c pc) at hread
  change UartInv uart irqEnable 0 at huart
  change Waits rx tx (.read c pc) at hwaits
  change uart.ienAF = true ∨ rx.contents ≠ [] ∨ _ at hrx
  change uart.ienAE = true ∨ tx.contents = [] ∨ False at htx
  cases pc with
  | loadIn =>
    cases hs
    exact ⟨huart, trivial, trivial, hwaits, hrx, htx⟩
  | loadOut inp =>
    simp only [readStep] at hs
    rw [← show filled BUF_LEN inp rx.out = if inp ≥ rx.out then inp - rx.out else BUF_LEN - rx.out from rfl] at hs
    split at hs
    · next hz =>
      cases hs
      exact ⟨huart, trivial, trivial, fun _ => ⟨hwaits, (filled_eq_zero_iff rx.out_lt).1 hz⟩, hrx, htx⟩
    · next hn =>
      cases hs
      refine ⟨huart, trivial, trivial, ⟨?_, ?_, Nat.zero_le _⟩, hrx, htx⟩
      · split
        · exact hwaits
        · exact Nat.pos_of_ne_zero hn
      · split <;> omega
  | copy inp out n chunk =>
    obtain ⟨hpos, hsp, hle⟩ := hwaits
    simp only [readStep] at hs
    split at hs
    · next hlt =>
      cases hg : rx.get (out + chunk.length) with
      | error e => rw [hg] at hs; cases hs
      | ok x =>
        rw [hg] at hs
        cases hs
        refine ⟨huart, trivial, trivial, ⟨hpos, hsp, ?_⟩, hrx, htx⟩
        rw [List.length_append]
        exact hlt
    · cases hs
      have hne : chunk ≠ [] := by
        rw [← List.length_pos_iff]
        omega
      exact ⟨huart, trivial, trivial, ⟨hne, hle.trans hsp⟩, hrx, htx⟩
  | publish inp out chunk =>
    obtain ⟨hne, hle⟩ := hwaits
    have hgot : c.got ++ chunk ≠ [] := List.append_ne_nil_of_right_ne_nil _ hne
    simp only [readStep] at hs
    split at hs <;> cases hs
    · next hpos => exact ⟨huart, trivial, trivial, hpos, .inr (.inr hgot), htx⟩
    · exact ⟨huart, trivial, trivial, fun hnil => absurd hnil hgot, .inr (.inr hgot), htx⟩
  | check inp =>
    simp only [readStep] at hs
    split at hs
    · next hne =>
      cases hs
      exact ⟨huart, trivial, trivial, hne, hrx, htx⟩
    · next hnil =>
      have hgot : c.got = [] := not_not.1 hnil
      have hrx' : uart.ienAF = true ∨ rx.contents ≠ [] ∨ False := hrx.imp_right (.imp_right fun hne => hne hgot)
      split at hs <;> cases hs
      · exact ⟨huart, trivial, trivial, trivial, hrx', htx⟩
      · next hb =>
        obtain ⟨hpos, hinp⟩ := hwaits hgot
        exact ⟨huart, trivial, trivial, ⟨hgot, Bool.eq_false_iff.2 hb, hpos, hinp⟩, hrx', htx⟩
  | spin inp =>
    simp only [readStep] at hs
    split at hs <;> cases hs <;> exact ⟨huart, trivial, trivial, hwaits, hrx, htx⟩
  | recheck inp =>
    simp only [readStep] at hs
    split at hs <;> cases hs
    · exact ⟨huart, trivial, trivial, trivial, hrx, htx⟩
    · exact ⟨huart, trivial, trivial, hwaits.2.2.1, hrx.imp_right (.imp_right False.elim), htx⟩
  | enable =>
    cases hs
    have hre := enable_rx irqEnable
    refine ⟨huart.writeControl rfl rfl, trivial, trivial, trivial, .inl hre.1, ?_⟩
    show (irqEnable ||| CONTROL_RE_MSK).getLsbD 1 = true ∨ _
    rw [hre.2, ← huart.ienAE]
    exact htx
  | ret =>
    cases hs
    exact ⟨huart, trivial, trivial, trivial, hrx, htx⟩

theorem writeStep_irq {s s' : Jtag} {c : WriteCall} {pc : WritePc} {o : Out} (h : IrqInv s) (hw : TxInv s)
    (hi : s.isr = none) (ht : s.task = .write c pc) (hs : s.writeStep c pc = .ok (s', o)) : IrqInv s' := by
  obtain ⟨huart, -, -, hwaits, hrx, htx⟩ := h
  obtain ⟨hwrite, -, -⟩ := hw
  obtain ⟨uart, timeout, irqEnable, hostInactive, rx, tx, isr, task⟩ := s
  obtain rfl : isr = none := hi
  obtain rfl : task = .write c pc := ht
  change Writing tx (.write c pc) at hwrite
  change UartInv uart irqEnable 0 at huart
  change Waits rx tx (.write c pc) at hwaits
  change uart.ienAF = true ∨ rx.contents ≠ [] ∨ False at hrx
  change uart.ienAE = true ∨ tx.contents = [] ∨ _ at htx
  cases pc with
  | loadIn =>
    cases hs
    exact ⟨huart, trivial, trivial, hwaits, hrx, htx⟩
  | loadOut inp =>
    obtain rfl : inp = tx.inp := hwrite
    simp only [writeStep] at hs
    rw [← show free BUF_LEN tx.inp tx.out = if tx.inp < tx.out then tx.out - 1 - tx.inp
      else if tx.out > 0 then BUF_LEN - tx.inp else BUF_LEN - 1 - tx.inp from rfl] at hs
    split at hs
    · next hz =>
      cases hs
      refine ⟨huart, trivial, trivial, fun _ => ⟨tx.out_lt, ?_⟩, hrx, .inr (.inr trivial)⟩
      rw [(dist_eq_zero_iff tx.out_lt).2 rfl, Nat.zero_add]
      exact (free_eq_zero_iff tx.out_lt tx.inp_lt).1 hz
    · next hn =>
      cases hs
      refine ⟨huart, trivial, trivial, ?_, hrx, .inr (.inr trivial)⟩
      show 0 < if free BUF_LEN tx.inp tx.out > c.count then c.count else free BUF_LEN tx.inp tx.out
      split
      · exact hwaits
      · exact Nat.pos_of_ne_zero hn
  | copy inp out n k =>
    simp only [writeStep] at hs
    split at hs
    · cases hp : tx.put (inp + k) (c.data.getD (c.sent + k) 0) with
      | error e => rw [hp] at hs; cases hs
      | ok tx' =>
        rw [hp] at hs
        cases hs
        exact ⟨huart, trivial, trivial, hwaits, hrx, .inr (.inr trivial)⟩
    · cases hs
      exact ⟨huart, trivial, trivial, hwaits, hrx, .inr (.inr trivial)⟩
  | publish inp out n =>
    simp only [writeStep] at hs
    split at hs <;> cases hs
    · next hpos => exact ⟨huart, trivial, trivial, hpos, hrx, .inr (.inr trivial)⟩
    · next hz => exact ⟨huart, trivial, trivial, fun hpos => absurd hpos hz, hrx, .inr (.inr trivial)⟩
  | enable out =>
    have hwe := enable_tx irqEnable
    have hrx' : (irqEnable ||| CONTROL_WE_MSK).getLsbD 0 = true ∨ rx.contents ≠ [] ∨ False := by
      rw [hwe.2, ← huart.ienAF]
      exact hrx
    simp only [writeStep] at hs
    split at hs <;> cases hs
    · next hgo =>
      obtain ⟨ho, hd⟩ := hwaits hgo.1
      exact ⟨huart.writeControl rfl rfl, trivial, trivial, ⟨hgo.1, hgo.2, ho, hd⟩, hrx', .inl hwe.1⟩
    · exact ⟨huart.writeControl rfl rfl, trivial, trivial, trivial, hrx', .inl hwe.1⟩
  | spin out =>
    simp only [writeStep] at hs
    split at hs <;> cases hs
    · exact ⟨huart, trivial, trivial, hwaits, hrx, htx⟩
    · exact ⟨huart, trivial, trivial, ⟨hwaits.1, hwaits.2.1⟩, hrx, htx⟩
  | active =>
    simp only [writeStep] at hs
    split at hs <;> cases hs
    · exact ⟨huart, trivial, trivial, trivial, hrx, htx⟩
    · exact ⟨huart, trivial, trivial, hwaits.1, hrx, htx.imp_right (.imp_right False.elim)⟩
  | ret =>
    cases hs
    exact ⟨huart, trivial, trivial, trivial, hrx, htx⟩

/-! ## Every step -/

theorem taskStep_irq {s s' : Jtag} {o : Out} (h : IrqInv s) (hr : RxInv s) (hw : TxInv s) (hi : s.isr = none)
    (hs : s.taskStep = .ok (s', o)) : IrqInv s' := by
  unfold taskStep at hs
  split at hs
  · cases hs
    have huart := h.uart
    rw [hi] at huart
    refine ⟨?_, ?_, ?_, trivial, .inl rfl, ?_⟩
    · show UartInv _ _ (popping s.isr)
      rw [hi]
      exact huart.writeControl rfl rfl
    · show RxDue _ s.rx s.isr
      rw [hi]
      trivial
    · exact h.drained
    · next alarm ht =>
      have hwaits := h.waits
      rw [ht] at hwaits
      exact .inr (.inl hwaits)
  · cases hs
    exact h
  · next c pc ht => exact readStep_irq h hr hi ht hs
  · next c pc ht => exact writeStep_irq h hw hi ht hs

/-- A byte from the host only adds to what there is to receive. -/
theorem RxDue.hostSend {u : Uart} {rx : RingBuffer UInt8 BUF_LEN} {isr : Option IsrPc} (h : RxDue u rx isr)
    (c : UInt8) :
    RxDue (u.hostSend c) rx isr := by
  have hne : u.rfifo.bytes ≠ [] → (u.hostSend c).rfifo.bytes ≠ [] := by
    intro hne
    simp only [Uart.hostSend, Fifo.push]
    split
    · exact List.append_ne_nil_of_left_ne_nil hne _
    · exact hne
  cases isr with
  | none => trivial
  | some pc =>
    cases pc with
    | rxCheck => exact h.imp_left hne
    | rxPop => exact h.imp_left hne
    | rxData => exact h
    | rxDone => exact h
    | _ => trivial

theorem step_irq {s s' : Jtag} {e : Step} {o : Out} (h : IrqInv s) (hr : RxInv s) (hw : TxInv s)
    (hs : s.step e = .ok (s', o)) : IrqInv s' := by
  cases e with
  | cpu =>
    simp only [step] at hs
    split at hs
    · next pc hi =>
      cases hpc : s.isrStep pc with
      | error e => rw [hpc] at hs; cases hs
      | ok s₁ =>
        rw [hpc] at hs
        cases hs
        exact isrStep_irq h hr hi hpc
    · next hi => exact taskStep_irq h hr hw hi hs
  | irq =>
    simp only [step] at hs
    split at hs
    · cases hs
      exact h
    · next hi =>
      have huart := h.uart
      rw [hi] at huart
      split at hs <;> cases hs
      · exact ⟨huart, trivial, trivial, h.waits, h.rxArmed, h.txArmed⟩
      · exact h
  | tick =>
    simp only [step] at hs
    split at hs <;> cases hs
    · exact h
    · next hi =>
      have huart := h.uart
      rw [hi] at huart
      exact ⟨huart, trivial, trivial, h.waits, h.rxArmed, h.txArmed⟩
  | read space nonblock =>
    simp only [step] at hs
    split at hs <;> cases hs
    · next hi ht =>
      have hrx := h.rxArmed
      have htx := h.txArmed
      unfold RxArmed at hrx
      unfold TxArmed at htx
      rw [ht] at hrx htx
      refine ⟨h.uart, h.due, h.drained, ?_, hrx.imp_right (.imp_right False.elim),
        htx.imp_right (.imp_right False.elim)⟩
      show Waits s.rx s.tx (.read ⟨space, nonblock, []⟩ (if 0 < space then .loadIn else .ret))
      split
      · next hpos => exact hpos
      · trivial
    · exact h
  | write data nonblock =>
    simp only [step] at hs
    split at hs <;> cases hs
    · next hi ht =>
      have hrx := h.rxArmed
      have htx := h.txArmed
      unfold RxArmed at hrx
      unfold TxArmed at htx
      rw [ht] at hrx htx
      refine ⟨h.uart, h.due, h.drained, ?_, hrx.imp_right (.imp_right False.elim),
        htx.imp_right (.imp_right False.elim)⟩
      show Waits s.rx s.tx (.write ⟨data, nonblock, 0⟩ (if 0 < data.length then .loadIn else .enable 0))
      split
      · next hpos => exact hpos
      · next hz => exact fun hpos => absurd hpos hz
    · exact h
  | hostSend c =>
    cases hs
    exact ⟨h.uart.hostSend c, h.due.hostSend c, h.drained, h.waits, h.rxArmed, h.txArmed⟩
  | hostPause =>
    cases hs
    exact ⟨h.uart.hostPause, h.due, h.drained, h.waits, h.rxArmed, h.txArmed⟩
  | hostTake =>
    cases hs
    exact ⟨h.uart.hostTake, h.due, h.drained, h.waits, h.rxArmed, h.txArmed⟩
  | clock =>
    cases hs
    exact ⟨h.uart.clock.mono, h.due, h.drained, h.waits, h.rxArmed, h.txArmed⟩

theorem reset_irq (alarm : Bool) : IrqInv (reset alarm) where
  uart := ⟨(BitVec.getLsbD_zero).symm, (BitVec.getLsbD_zero).symm, fun h => absurd h Bool.false_ne_true,
    fun h => absurd h Bool.false_ne_true, fun h => absurd h Bool.false_ne_true⟩
  due := trivial
  drained := trivial
  waits := (contents_eq_nil_iff _).2 rfl
  rxArmed := .inr (.inr trivial)
  txArmed := .inr (.inl ((contents_eq_nil_iff _).2 rfl))

end Jtag
end NuttyNios
