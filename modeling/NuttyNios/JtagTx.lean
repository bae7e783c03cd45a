import NuttyNios.JtagRx
/-!
# From `write` to the host

A byte that a write has taken is in the ring buffer or in the transmit FIFO until the host takes it.
`step_tx` keeps what the writes took equal to what the host took and `owed`. The interrupt routine
never gives the FIFO more than the space it read from the control register (`Spaced`), so the FIFO
does not overflow.
-/

namespace NuttyNios
open Buffer RingBuffer

namespace Jtag

/-- What the write under way has taken from its caller. -/
def Task.taken : Task → List UInt8
  | .write c _ => c.data.take c.sent
  | _ => []

/-- The bytes on their way to the host, oldest first. -/
def owed (s : Jtag) : List UInt8 := s.uart.wfifo.bytes ++ s.tx.contents

/-- What a write knows of the ring buffer: nobody else moves `tx_in`, and the bytes copied so far are
staged behind it. -/
def Writing (tx : RingBuffer UInt8 BUF_LEN) : Task → Prop
  | .write _ (.loadOut inp) => inp = tx.inp
  | .write c (.copy inp _ n k) => inp = tx.inp ∧ inp + n ≤ BUF_LEN ∧ k ≤ n ∧ n ≤ c.count ∧ tx.count + n < BUF_LEN ∧
      tx.Staged ((c.data.drop c.sent).take k)
  | .write c (.publish inp _ n) => inp = tx.inp ∧ n ≤ c.count ∧ tx.Staged ((c.data.drop c.sent).take n)
  | _ => True

/-- The space that the interrupt routine goes by is still free. -/
def Spaced (wfifo : Fifo) : Option IsrPc → Prop
  | some (.rxCheck control _) | some (.rxPop control) | some (.rxData control) | some (.rxDone control _)
  | some (.tx control) => ((control &&& CONTROL_WSPACE_MSK) >>> CONTROL_WSPACE_OFST).toNat + wfifo.bytes.length ≤ 64
  | some (.txLoop space) => space + wfifo.bytes.length ≤ 64
  | _ => True

structure TxInv (s : Jtag) : Prop where
  writing : Writing s.tx s.task
  spaced : Spaced s.uart.wfifo s.isr
  woverflow : s.uart.woverflow = false

/-- Taking from the front does not disturb a write. -/
theorem Writing.consume {tx : RingBuffer UInt8 BUF_LEN} {t : Task} (h : Writing tx t) (hc : 1 ≤ tx.count) :
    Writing (tx.setOut (tx.out + 1)) t := by
  have hcount := count_setOut tx hc
  match t, h with
  | .write _ (.loadOut _), hi => exact hi
  | .write _ (.copy _ _ _ _), ⟨hi, hle, hk, hn, hroom, hst⟩ =>
    exact ⟨hi, hle, hk, hn, by rw [hcount]; omega, hst.setOut hc⟩
  | .write _ (.publish _ _ _), ⟨hi, hn, hst⟩ => exact ⟨hi, hn, hst.setOut hc⟩
  | .init _, _ | .idle, _ | .read _ _, _ => trivial
  | .write _ .loadIn, _ | .write _ (.enable _), _ | .write _ (.spin _), _ => trivial
  | .write _ .active, _ | .write _ .ret, _ => trivial

/-- A FIFO that the host empties has the more space. -/
theorem Spaced.mono {f f' : Fifo} {isr : Option IsrPc} (h : Spaced f isr) (hle : f'.bytes.length ≤ f.bytes.length) :
    Spaced f' isr := by
  match isr, h with
  | some (.rxCheck _ _), h | some (.rxPop _), h | some (.rxData _), h | some (.rxDone _ _), h
  | some (.tx _), h | some (.txLoop _), h => exact (Nat.add_le_add_left hle _).trans h
  | none, _ | some .top, _ | some (.txDone _), _ | some .timeout, _ | some .timeoutClear, _ => trivial

theorem wspace_le (u : Uart) :
    ((u.controlWord &&& CONTROL_WSPACE_MSK) >>> CONTROL_WSPACE_OFST).toNat + u.wfifo.bytes.length ≤ 64 := by
  have hle := u.wfifo.length_le
  rw [Uart.controlWord_wspace]
  omega

/-! ## The interrupt routine -/

theorem isrStep_tx {s s' : Jtag} {pc : IsrPc} (h : TxInv s) (hi : s.isr = some pc) (hs : s.isrStep pc = .ok s') :
    TxInv s' ∧ s'.task = s.task ∧ s'.owed = s.owed := by
  obtain ⟨hw, hsp, hov⟩ := h
  obtain ⟨uart, timeout, irqEnable, hostInactive, rx, tx, isr, task⟩ := s
  obtain rfl : isr = some pc := hi
  change Writing tx task at hw
  change Spaced uart.wfifo (some pc) at hsp
  cases pc with
  | top =>
    have hspace := wspace_le uart
    simp only [isrStep] at hs
    split_ifs at hs <;> cases hs
    · exact ⟨⟨hw, trivial, hov⟩, rfl, rfl⟩
    · exact ⟨⟨hw, hspace, hov⟩, rfl, rfl⟩
    · exact ⟨⟨hw, hspace, hov⟩, rfl, rfl⟩
  | rxPop control =>
    cases hs
    exact ⟨⟨hw, hsp, hov⟩, rfl, rfl⟩
  | rxData control =>
    simp only [isrStep] at hs
    split at hs
    · cases hs
      exact ⟨⟨hw, hsp, hov⟩, rfl, rfl⟩
    · cases hp : rx.put rx.inp (.ofBitVec ((uart.dataWord &&& DATA_DATA_MSK).setWidth 8)) with
      | error e => rw [hp] at hs; cases hs
      | ok rx' =>
        rw [hp] at hs
        cases hs
        exact ⟨⟨hw, hsp, hov⟩, rfl, rfl⟩
  | txLoop space =>
    simp only [isrStep] at hs
    split at hs
    · next hgo =>
      obtain ⟨hpos, hne⟩ := hgo
      change space + uart.wfifo.bytes.length ≤ 64 at hsp
      obtain ⟨c, rest, hcont⟩ : ∃ c rest, tx.contents = c :: rest :=
        List.exists_cons_of_ne_nil fun hnil => hne ((contents_eq_nil_iff tx).1 hnil).symm
      have hcount : 1 ≤ tx.count := by
        rw [← length_contents, hcont, List.length_cons]
        omega
      have hget : tx.get tx.out = .ok c := by
        have := tx.get_front (k := 0) (by rw [hcont]; exact Nat.succ_pos _) tx.out_lt
        simpa [hcont] using this
      rw [hget] at hs
      cases hs
      have hlt : uart.wfifo.bytes.length < 64 := by omega
      have hpush : (uart.wfifo.push c).bytes = uart.wfifo.bytes ++ [c] := by
        rw [Fifo.push, dif_pos hlt]
      refine ⟨⟨hw.consume hcount, ?_, ?_⟩, rfl, ?_⟩
      · show space - 1 + (uart.wfifo.push c).bytes.length ≤ 64
        rw [hpush, List.length_append, List.length_singleton]
        omega
      · show decide (uart.wfifo.bytes.length = 64) = false
        rw [decide_eq_false_iff_not]
        omega
      · show (uart.wfifo.push c).bytes ++ (tx.setOut (tx.out + 1)).contents = uart.wfifo.bytes ++ tx.contents
        rw [hpush, contents_setOut tx hcount, hcont, List.append_assoc]
        rfl
    · cases hs
      exact ⟨⟨hw, trivial, hov⟩, rfl, rfl⟩
  | timeoutClear =>
    cases hs
    exact ⟨⟨hw, trivial, hov⟩, rfl, rfl⟩
  | timeout | txDone space =>
    simp only [isrStep] at hs
    split_ifs at hs <;> cases hs <;> exact ⟨⟨hw, trivial, hov⟩, rfl, rfl⟩
  | tx control =>
    simp only [isrStep] at hs
    split at hs <;> cases hs
    · exact ⟨⟨hw, hsp, hov⟩, rfl, rfl⟩
    · exact ⟨⟨hw, trivial, hov⟩, rfl, rfl⟩
  | rxCheck control data | rxDone control data =>
    simp only [isrStep] at hs
    split at hs <;> cases hs <;> exact ⟨⟨hw, hsp, hov⟩, rfl, rfl⟩

/-! ## The caller -/

theorem writeStep_tx {s s' : Jtag} {c : WriteCall} {pc : WritePc} {o : Out} (h : TxInv s) (hi : s.isr = none)
    (ht : s.task = .write c pc) (hs : s.writeStep c pc = .ok (s', o)) :
    TxInv s' ∧ ∃ l, o.accepted ++ s'.task.taken = s.task.taken ++ l ∧ s'.owed = s.owed ++ l := by
  obtain ⟨hw, -, hov⟩ := h
  obtain ⟨uart, timeout, irqEnable, hostInactive, rx, tx, isr, task⟩ := s
  obtain rfl : isr = none := hi
  obtain rfl : task = .write c pc := ht
  change Writing tx (.write c pc) at hw
  cases pc with
  | loadIn =>
    cases hs
    exact ⟨⟨rfl, trivial, hov⟩, [], (List.append_nil _).symm, (List.append_nil _).symm⟩
  | loadOut inp =>
    obtain rfl : inp = tx.inp := hw
    obtain ⟨hroom, hpiece⟩ := free_le tx.out_lt tx.inp_lt
    simp only [writeStep] at hs
    rw [← show free BUF_LEN tx.inp tx.out = if tx.inp < tx.out then tx.out - 1 - tx.inp
      else if tx.out > 0 then BUF_LEN - tx.inp else BUF_LEN - 1 - tx.inp from rfl] at hs
    split at hs
    · cases hs
      exact ⟨⟨trivial, trivial, hov⟩, [], (List.append_nil _).symm, (List.append_nil _).symm⟩
    · have hle : (if free BUF_LEN tx.inp tx.out > c.count then c.count else free BUF_LEN tx.inp tx.out) ≤
          free BUF_LEN tx.inp tx.out := by
        split <;> omega
      have hle' : (if free BUF_LEN tx.inp tx.out > c.count then c.count else free BUF_LEN tx.inp tx.out) ≤ c.count := by
        split <;> omega
      have hst : tx.Staged ((c.data.drop c.sent).take 0) := tx.staged_nil
      cases hs
      exact ⟨⟨⟨rfl, (Nat.add_le_add_left hle _).trans hpiece, Nat.zero_le _, hle',
        Nat.lt_of_le_of_lt (Nat.add_le_add_left hle _) hroom, hst⟩, trivial, hov⟩, [],
        (List.append_nil _).symm, (List.append_nil _).symm⟩
  | copy inp out n k =>
    obtain ⟨rfl, hpiece, hk, hn, hroom, hst⟩ := hw
    have hcount : c.count = c.data.length - c.sent := rfl
    simp only [writeStep] at hs
    split at hs
    · next hlt =>
      have hlen : ((c.data.drop c.sent).take k).length = k := by
        rw [List.length_take, List.length_drop]
        omega
      have hbyte : (c.data.drop c.sent).take k ++ [c.data.getD (c.sent + k) 0] = (c.data.drop c.sent).take (k + 1) := by
        rw [List.take_add_one, List.getElem?_drop, List.getD_eq_getElem?_getD,
          List.getElem?_eq_getElem (by omega : c.sent + k < c.data.length)]
        rfl
      obtain ⟨tx', hput, hc, hin, hout, hst'⟩ := hst.put (by rw [hlen]; omega)
        (i := tx.inp + k) (by rw [hlen, Nat.mod_eq_of_lt (by omega)]) (c.data.getD (c.sent + k) 0)
      rw [hbyte] at hst'
      have hcount' : tx'.count = tx.count := by rw [count, count, hin, hout]
      rw [hput] at hs
      cases hs
      refine ⟨⟨⟨hin.symm, hpiece, hlt, hn, by rw [hcount']; exact hroom, hst'⟩, trivial, hov⟩, [],
        (List.append_nil _).symm, ?_⟩
      show uart.wfifo.bytes ++ tx'.contents = uart.wfifo.bytes ++ tx.contents ++ []
      rw [hc, List.append_nil]
    · next hge =>
      obtain rfl : k = n := by omega
      cases hs
      exact ⟨⟨⟨rfl, hn, hst⟩, trivial, hov⟩, [], (List.append_nil _).symm, (List.append_nil _).symm⟩
  | publish inp out n =>
    obtain ⟨rfl, hn, hst⟩ := hw
    have hcount : c.count = c.data.length - c.sent := rfl
    have hlen : ((c.data.drop c.sent).take n).length = n := by
      rw [List.length_take, List.length_drop]
      omega
    have hc : (tx.setIn (tx.inp + n)).contents = tx.contents ++ (c.data.drop c.sent).take n := by
      rw [hst.setIn (by rw [hlen])]
    have htaken : c.data.take (c.sent + n) = c.data.take c.sent ++ (c.data.drop c.sent).take n := List.take_add
    have howed : uart.wfifo.bytes ++ (tx.setIn (tx.inp + n)).contents =
        uart.wfifo.bytes ++ tx.contents ++ (c.data.drop c.sent).take n := by
      rw [hc, List.append_assoc]
    simp only [writeStep] at hs
    split at hs <;> cases hs <;> exact ⟨⟨trivial, trivial, hov⟩, _, htaken, howed⟩
  | ret =>
    cases hs
    refine ⟨⟨trivial, trivial, hov⟩, [], ?_, (List.append_nil _).symm⟩
    by_cases hz : c.sent = 0
    · rw [if_neg (not_not.2 hz)]
      cases c.nonblock <;> simp [Task.taken, Out.accepted, hz]
    · simp [Task.taken, Out.accepted, hz]
  | _ =>
    simp only [writeStep] at hs
    split_ifs at hs <;> cases hs <;>
      exact ⟨⟨trivial, trivial, hov⟩, [], (List.append_nil _).symm, (List.append_nil _).symm⟩

/-- A read leaves the transmit side alone. -/
theorem readStep_frame {s s' : Jtag} {c : ReadCall} {pc : ReadPc} {o : Out} (ht : s.task = .read c pc)
    (hs : s.readStep c pc = .ok (s', o)) :
    s'.tx = s.tx ∧ s'.isr = s.isr ∧ s'.uart.wfifo = s.uart.wfifo ∧ s'.uart.woverflow = s.uart.woverflow ∧
      o.accepted = [] ∧ o.written = [] ∧ s'.hostInactive = s.hostInactive ∧
      (s'.task = .idle ∨ ∃ c' pc', s'.task = .read c' pc') := by
  cases pc with
  | copy inp out n chunk =>
    simp only [readStep] at hs
    split at hs
    · cases hg : s.rx.get (out + chunk.length) with
      | error e => rw [hg] at hs; cases hs
      | ok x =>
        rw [hg] at hs
        cases hs
        exact ⟨rfl, rfl, rfl, rfl, rfl, rfl, rfl, .inr ⟨_, _, rfl⟩⟩
    · cases hs
      exact ⟨rfl, rfl, rfl, rfl, rfl, rfl, rfl, .inr ⟨_, _, rfl⟩⟩
  | spin inp =>
    simp only [readStep] at hs
    split_ifs at hs <;> cases hs
    · exact ⟨rfl, rfl, rfl, rfl, rfl, rfl, rfl, .inr ⟨_, _, ht⟩⟩
    · exact ⟨rfl, rfl, rfl, rfl, rfl, rfl, rfl, .inr ⟨_, _, rfl⟩⟩
  | loadIn | enable =>
    cases hs
    exact ⟨rfl, rfl, rfl, rfl, rfl, rfl, rfl, .inr ⟨_, _, rfl⟩⟩
  | ret =>
    cases hs
    exact ⟨rfl, rfl, rfl, rfl, rfl, rfl, rfl, .inl rfl⟩
  | _ =>
    simp only [readStep] at hs
    split_ifs at hs <;> cases hs <;> exact ⟨rfl, rfl, rfl, rfl, rfl, rfl, rfl, .inr ⟨_, _, rfl⟩⟩

theorem readStep_tx {s s' : Jtag} {c : ReadCall} {pc : ReadPc} {o : Out} (h : TxInv s)
    (ht : s.task = .read c pc) (hs : s.readStep c pc = .ok (s', o)) :
    TxInv s' ∧ o.accepted ++ s'.task.taken = s.task.taken ∧ s'.owed = s.owed := by
  obtain ⟨htx, hisr, hfifo, hov, hacc, -, -, hidle⟩ := readStep_frame ht hs
  refine ⟨⟨?_, ?_, by rw [hov]; exact h.woverflow⟩, ?_, by rw [owed, owed, htx, hfifo]⟩
  · rcases hidle with h | ⟨c', pc', h⟩ <;> rw [h] <;> trivial
  · rw [hfifo, hisr]
    exact h.spaced
  · rw [hacc, ht]
    rcases hidle with h | ⟨c', pc', h⟩ <;> rw [h] <;> rfl

/-! ## Every step -/

theorem transmitted_concat (outs : List Out) (o : Out) :
    transmitted (outs ++ [o]) = transmitted outs ++ o.transmitted := by
  simp [transmitted]

theorem accepted_concat (outs : List Out) (o : Out) : accepted (outs ++ [o]) = accepted outs ++ o.accepted := by
  simp [accepted]

/-- Only the host takes bytes. -/
theorem step_transmitted {s s' : Jtag} {e : Step} {o : Out} (he : e ≠ .hostTake) (hs : s.step e = .ok (s', o)) :
    o.transmitted = [] := by
  cases e with
  | cpu =>
    simp only [step] at hs
    split at hs
    · next pc _ =>
      cases hr : s.isrStep pc with
      | error e => rw [hr] at hs; cases hs
      | ok s₁ =>
        rw [hr] at hs
        cases hs
        rfl
    · exact (taskStep_host hs).2
  | irq =>
    simp only [step] at hs
    split at hs
    · cases hs
      rfl
    · split at hs <;> cases hs <;> rfl
  | tick | read | write =>
    simp only [step] at hs
    split at hs <;> cases hs <;> rfl
  | hostSend c =>
    cases hs
    split <;> rfl
  | hostTake => exact absurd rfl he
  | hostPause | clock =>
    cases hs
    rfl

theorem taskStep_tx {s s' : Jtag} {o : Out} (h : TxInv s) (hi : s.isr = none) (hs : s.taskStep = .ok (s', o)) :
    TxInv s' ∧ ∃ l, o.accepted ++ s'.task.taken = s.task.taken ++ l ∧ s'.owed = s.owed ++ l := by
  unfold taskStep at hs
  split at hs
  · next alarm ht =>
    cases hs
    refine ⟨⟨trivial, h.spaced, h.woverflow⟩, [], ?_, (List.append_nil _).symm⟩
    rw [ht]
    rfl
  · cases hs
    exact ⟨h, [], (List.append_nil _).symm, (List.append_nil _).symm⟩
  · next c pc ht =>
    obtain ⟨h', hacc, howed⟩ := readStep_tx h ht hs
    exact ⟨h', [], by rw [hacc, List.append_nil], by rw [howed, List.append_nil]⟩
  · next c pc ht => exact writeStep_tx h hi ht hs

/-- **What is taken comes out**: a step keeps the bytes the writes have taken equal to the bytes the
host took and those that are owed to it. -/
theorem step_tx {s s' : Jtag} {e : Step} {o : Out} (h : TxInv s) (hs : s.step e = .ok (s', o)) :
    TxInv s' ∧ ∃ l, o.accepted ++ s'.task.taken = s.task.taken ++ l ∧ s.owed ++ l = o.transmitted ++ s'.owed := by
  cases e with
  | cpu =>
    simp only [step] at hs
    split at hs
    · next pc hi =>
      cases hr : s.isrStep pc with
      | error e => rw [hr] at hs; cases hs
      | ok s₁ =>
        rw [hr] at hs
        cases hs
        obtain ⟨h', htask, howed⟩ := isrStep_tx h hi hr
        exact ⟨h', [], by rw [htask, List.append_nil]; rfl, by rw [howed, List.append_nil]; rfl⟩
    · next hi =>
      obtain ⟨h', l, htaken, howed⟩ := taskStep_tx h hi hs
      exact ⟨h', l, htaken, by rw [(taskStep_host hs).2, howed]; rfl⟩
  | irq =>
    simp only [step] at hs
    split at hs
    · cases hs
      exact ⟨h, [], (List.append_nil _).symm, List.append_nil _⟩
    · next hi =>
      split at hs <;> cases hs
      · exact ⟨⟨h.writing, trivial, h.woverflow⟩, [], (List.append_nil _).symm, List.append_nil _⟩
      · exact ⟨h, [], (List.append_nil _).symm, List.append_nil _⟩
  | tick =>
    simp only [step] at hs
    split at hs <;> cases hs
    · exact ⟨h, [], (List.append_nil _).symm, List.append_nil _⟩
    · exact ⟨⟨h.writing, trivial, h.woverflow⟩, [], (List.append_nil _).symm, List.append_nil _⟩
  | read space nonblock =>
    simp only [step] at hs
    split at hs
    · next hi ht =>
      cases hs
      refine ⟨⟨trivial, h.spaced, h.woverflow⟩, [], ?_, List.append_nil _⟩
      rw [ht]
      rfl
    · cases hs
      exact ⟨h, [], (List.append_nil _).symm, List.append_nil _⟩
  | write data nonblock =>
    simp only [step] at hs
    split at hs
    · next hi ht =>
      cases hs
      refine ⟨⟨?_, h.spaced, h.woverflow⟩, [], ?_, List.append_nil _⟩
      · show Writing s.tx (.write _ (if 0 < data.length then _ else _))
        split <;> trivial
      · rw [ht]
        rfl
    · cases hs
      exact ⟨h, [], (List.append_nil _).symm, List.append_nil _⟩
  | hostSend c =>
    cases hs
    refine ⟨⟨h.writing, h.spaced, h.woverflow⟩, [], ?_, ?_⟩
    · split <;> exact (List.append_nil _).symm
    · split <;> exact List.append_nil _
  | hostTake =>
    cases hs
    refine ⟨⟨h.writing, h.spaced.mono ?_, h.woverflow⟩, [], ?_, ?_⟩
    · simp [Uart.hostTake, Fifo.pop]
    · split <;> exact (List.append_nil _).symm
    · cases hb : s.uart.wfifo.bytes with
      | nil => simp [owed, Uart.hostTake, Fifo.pop, hb, Out.transmitted]
      | cons c rest => simp [owed, Uart.hostTake, Fifo.pop, hb, Out.transmitted]
  | hostPause | clock =>
    cases hs
    exact ⟨⟨h.writing, h.spaced, h.woverflow⟩, [], (List.append_nil _).symm, List.append_nil _⟩

theorem reset_tx (alarm : Bool) : TxInv (reset alarm) := ⟨trivial, trivial, rfl⟩

/-! ## No step goes outside a buffer -/

theorem get_ok (r : RingBuffer UInt8 BUF_LEN) {i : Nat} (hi : i < BUF_LEN) : ∃ x, r.get i = .ok x :=
  ⟨_, dif_pos hi⟩

theorem put_ok (r : RingBuffer UInt8 BUF_LEN) {i : Nat} (hi : i < BUF_LEN) (x : UInt8) : ∃ r', r.put i x = .ok r' := by
  refine ⟨{ r with buf := r.buf.set i x hi }, ?_⟩
  simp only [put, store, dif_pos hi]
  rfl

/-- The interrupt routine stores and loads at an index of its own, so it needs no invariant. -/
theorem isrStep_ok (s : Jtag) (pc : IsrPc) : ∃ s', s.isrStep pc = .ok s' := by
  cases pc with
  | rxData control =>
    obtain ⟨rx, hput⟩ := put_ok s.rx s.rx.inp_lt (.ofBitVec ((s.uart.dataWord &&& DATA_DATA_MSK).setWidth 8))
    simp only [isrStep]
    split
    · exact ⟨_, rfl⟩
    · rw [hput]
      exact ⟨_, rfl⟩
  | txLoop space =>
    obtain ⟨c, hget⟩ := get_ok s.tx s.tx.out_lt
    simp only [isrStep]
    split
    · rw [hget]
      exact ⟨_, rfl⟩
    · exact ⟨_, rfl⟩
  | rxPop control | timeoutClear => exact ⟨_, rfl⟩
  | _ =>
    simp only [isrStep]
    split_ifs <;> exact ⟨_, rfl⟩

theorem readStep_ok {s : Jtag} {c : ReadCall} {pc : ReadPc} (h : Reading s.rx (.read c pc)) :
    ∃ p, s.readStep c pc = .ok p := by
  cases pc with
  | copy inp out n chunk =>
    obtain ⟨-, hpiece, -, -⟩ := h
    simp only [readStep]
    split
    · obtain ⟨x, hget⟩ := get_ok s.rx (i := out + chunk.length) (by omega)
      rw [hget]
      exact ⟨_, rfl⟩
    · exact ⟨_, rfl⟩
  | loadIn | enable | ret => exact ⟨_, rfl⟩
  | _ =>
    simp only [readStep]
    split_ifs <;> exact ⟨_, rfl⟩

theorem writeStep_ok {s : Jtag} {c : WriteCall} {pc : WritePc} (h : Writing s.tx (.write c pc)) :
    ∃ p, s.writeStep c pc = .ok p := by
  cases pc with
  | copy inp out n k =>
    obtain ⟨-, hpiece, -⟩ := h
    simp only [writeStep]
    split
    · obtain ⟨tx, hput⟩ := put_ok s.tx (i := inp + k) (by omega) (c.data.getD (c.sent + k) 0)
      rw [hput]
      exact ⟨_, rfl⟩
    · exact ⟨_, rfl⟩
  | loadIn | ret => exact ⟨_, rfl⟩
  | _ =>
    simp only [writeStep]
    split_ifs <;> exact ⟨_, rfl⟩

theorem step_ok {s : Jtag} (hr : RxInv s) (hw : TxInv s) (e : Step) : ∃ p, s.step e = .ok p := by
  have htask : ∃ p, s.taskStep = .ok p := by
    obtain ⟨hread, -⟩ := hr
    obtain ⟨hwrite, -, -⟩ := hw
    unfold taskStep
    split
    · exact ⟨_, rfl⟩
    · exact ⟨_, rfl⟩
    · next c pc ht => exact readStep_ok (ht ▸ hread)
    · next c pc ht => exact writeStep_ok (ht ▸ hwrite)
  cases e with
  | cpu =>
    simp only [step]
    split
    · next pc _ =>
      obtain ⟨s', hs⟩ := isrStep_ok s pc
      rw [hs]
      exact ⟨_, rfl⟩
    · exact htask
  | hostSend | hostPause | hostTake | clock => exact ⟨_, rfl⟩
  | irq =>
    simp only [step]
    split
    · exact ⟨_, rfl⟩
    · split <;> exact ⟨_, rfl⟩
  | tick | read | write =>
    simp only [step]
    split <;> exact ⟨_, rfl⟩

end Jtag
end NuttyNios
