import NuttyNios.Jtag
/-!
# From the host to `read`

A byte of the host is in one of five places until a read returns it: the receive FIFO, the register
the interrupt routine has just popped it to, the ring buffer, and the caller's buffer. `inFlight`
lists them, oldest first, and every step keeps what went in equal to what came out and `inFlight`
(`step_rx`). That the reader copies while the interrupt routine stores is what `Reading` is about.
-/

namespace NuttyNios
open Buffer RingBuffer

namespace Uart

@[simp] theorem clock_rfifo (u : Uart) : u.clock.rfifo = u.rfifo := rfl
@[simp] theorem clock_wfifo (u : Uart) : u.clock.wfifo = u.wfifo := rfl
@[simp] theorem clock_rvalid (u : Uart) : u.clock.rvalid = u.rvalid := rfl
@[simp] theorem clock_rdata (u : Uart) : u.clock.rdata = u.rdata := rfl

end Uart

namespace Jtag

/-- A byte popped from the FIFO and not stored yet. -/
def popped (u : Uart) : Option IsrPc → List UInt8
  | some (.rxData _) => if u.rvalid then [u.rdata] else []
  | _ => []

/-- What a read has taken out of the ring buffer. -/
def Task.got : Task → List UInt8
  | .read c _ => c.got
  | _ => []

/-- The bytes that are on their way, oldest first. -/
def inFlight (s : Jtag) : List UInt8 :=
  s.task.got ++ s.rx.contents ++ popped s.uart s.isr ++ s.uart.rfifo.bytes

/-- What a read knows of the ring buffer: an earlier `rx_in` is not ahead of the present one, and
what has been copied is what is at the front. -/
def Reading (rx : RingBuffer UInt8 BUF_LEN) : Task → Prop
  | .read _ (.loadOut inp) => inp < BUF_LEN ∧ dist BUF_LEN rx.out inp ≤ rx.count
  | .read _ (.copy _ out n chunk) => out = rx.out ∧ out + n ≤ BUF_LEN ∧ n ≤ rx.count ∧ chunk <+: rx.contents
  | .read _ (.publish _ out chunk) => out = rx.out ∧ chunk <+: rx.contents
  | _ => True

/-- The interrupt routine only takes a byte that it has room for. -/
def Room (rx : RingBuffer UInt8 BUF_LEN) : Option IsrPc → Prop
  | some (.rxPop _) | some (.rxData _) => (rx.inp + 1) % BUF_LEN ≠ rx.out
  | _ => True

structure RxInv (s : Jtag) : Prop where
  reading : Reading s.rx s.task
  room : Room s.rx s.isr

/-- Storing more behind the front does not disturb a read. -/
theorem Reading.append {rx rx' : RingBuffer UInt8 BUF_LEN} {t : Task} {l : List UInt8} (h : Reading rx t)
    (hout : rx'.out = rx.out) (hc : rx'.contents = rx.contents ++ l) : Reading rx' t := by
  have hlen : rx'.count = rx.count + l.length := by
    rw [← length_contents, hc, List.length_append, length_contents]
  match t, h with
  | .read _ (.loadOut inp), ⟨hi, hd⟩ => exact ⟨hi, by rw [hout, hlen]; omega⟩
  | .read _ (.copy _ out n chunk), ⟨ho, hle, hn, hp⟩ =>
    exact ⟨by rw [hout]; exact ho, hle, by omega, hc ▸ hp.trans (List.prefix_append _ _)⟩
  | .read _ (.publish _ out chunk), ⟨ho, hp⟩ => exact ⟨by rw [hout]; exact ho, hc ▸ hp.trans (List.prefix_append _ _)⟩
  | .init _, _ | .idle, _ | .write _ _, _ => trivial
  | .read _ .loadIn, _ | .read _ (.check _), _ | .read _ (.spin _), _ | .read _ (.recheck _), _ => trivial
  | .read _ .enable, _ | .read _ .ret, _ => trivial

/-! ## The interrupt routine -/

theorem isrStep_rx {s s' : Jtag} {pc : IsrPc} (h : RxInv s) (hi : s.isr = some pc) (hs : s.isrStep pc = .ok s') :
    RxInv s' ∧ s'.inFlight = s.inFlight := by
  obtain ⟨hread, hroom⟩ := h
  unfold inFlight
  rw [hi] at hroom ⊢
  cases pc with
  | rxCheck control data =>
    simp only [isrStep] at hs
    split at hs
    · cases hs
      exact ⟨⟨hread, trivial⟩, rfl⟩
    · next hfull =>
      cases hs
      exact ⟨⟨hread, hfull⟩, rfl⟩
  | rxPop control =>
    cases hs
    refine ⟨⟨hread, hroom⟩, ?_⟩
    cases hb : s.uart.rfifo.bytes with
    | nil => simp [popped, Uart.popData, Fifo.used, Fifo.pop, hb]
    | cons c rest => simp [popped, Uart.popData, Fifo.used, Fifo.pop, hb]
  | rxData control =>
    simp only [isrStep] at hs
    split at hs
    · next hv =>
      cases hs
      have hrv : s.uart.rvalid = false := by
        rw [← Bool.not_eq_true, ← Uart.dataWord_rvalid, not_not]
        exact hv
      refine ⟨⟨hread, trivial⟩, ?_⟩
      simp [popped, hrv]
    · next hv =>
      have hrv : s.uart.rvalid = true := (Uart.dataWord_rvalid _).1 hv
      obtain ⟨rx, hput, hin, hout, hc⟩ := s.rx.push hroom s.uart.rdata
      rw [Uart.dataWord_data, UInt8.ofBitVec_toBitVec, hput] at hs
      cases hs
      refine ⟨⟨hread.append (by simpa using hout) hc, trivial⟩, ?_⟩
      simp [popped, hrv, hc]
  | top =>
    simp only [isrStep] at hs
    split_ifs at hs <;> cases hs <;> exact ⟨⟨hread, trivial⟩, rfl⟩
  | txLoop space =>
    simp only [isrStep] at hs
    split at hs
    · cases hg : s.tx.get s.tx.out with
      | error e => rw [hg] at hs; cases hs
      | ok c =>
        rw [hg] at hs
        cases hs
        exact ⟨⟨hread, trivial⟩, rfl⟩
    · cases hs
      exact ⟨⟨hread, trivial⟩, rfl⟩
  | timeoutClear =>
    cases hs
    exact ⟨⟨hread, trivial⟩, rfl⟩
  | _ =>
    simp only [isrStep] at hs
    split_ifs at hs <;> cases hs <;> exact ⟨⟨hread, trivial⟩, rfl⟩

/-! ## The caller -/

theorem prefix_concat {l chunk : List UInt8} (h : chunk <+: l) (hlt : chunk.length < l.length) :
    chunk ++ [l[chunk.length]] <+: l := by
  rw [List.prefix_iff_eq_take] at h ⊢
  rw [List.length_append, List.length_singleton, List.take_add_one, ← h, List.getElem?_eq_getElem hlt]
  rfl

theorem readStep_rx {s s' : Jtag} {c : ReadCall} {pc : ReadPc} {o : Out} (h : RxInv s) (hi : s.isr = none)
    (ht : s.task = .read c pc) (hs : s.readStep c pc = .ok (s', o)) :
    RxInv s' ∧ s.inFlight = o.returned ++ s'.inFlight := by
  obtain ⟨hread, -⟩ := h
  obtain ⟨uart, timeout, irqEnable, hostInactive, rx, tx, isr, task⟩ := s
  obtain rfl : isr = none := hi
  obtain rfl : task = .read c pc := ht
  change Reading rx (.read c pc) at hread
  unfold inFlight
  cases pc with
  | loadIn =>
    cases hs
    exact ⟨⟨⟨rx.inp_lt, Nat.le_refl _⟩, trivial⟩, rfl⟩
  | loadOut inp =>
    obtain ⟨hlt, hle⟩ := hread
    obtain ⟨hn, hpiece⟩ := filled_le rx.out_lt hlt
    simp only [readStep] at hs
    rw [← show filled BUF_LEN inp rx.out = if inp ≥ rx.out then inp - rx.out else BUF_LEN - rx.out from rfl] at hs
    split at hs
    · cases hs
      exact ⟨⟨trivial, trivial⟩, rfl⟩
    · have hle' : (if filled BUF_LEN inp rx.out > c.space then c.space else filled BUF_LEN inp rx.out) ≤
          filled BUF_LEN inp rx.out := by
        split <;> omega
      cases hs
      exact ⟨⟨⟨rfl, (Nat.add_le_add_left hle' _).trans hpiece, hle'.trans (hn.trans hle), List.nil_prefix⟩, trivial⟩,
        rfl⟩
  | copy inp out n chunk =>
    obtain ⟨rfl, hpiece, hn, hp⟩ := hread
    simp only [readStep] at hs
    split at hs
    · next hlt =>
      have hlen : chunk.length < rx.contents.length := by
        rw [length_contents]
        omega
      rw [rx.get_front hlen (by omega)] at hs
      cases hs
      exact ⟨⟨⟨rfl, hpiece, hn, prefix_concat hp hlen⟩, trivial⟩, rfl⟩
    · cases hs
      exact ⟨⟨⟨rfl, hp⟩, trivial⟩, rfl⟩
  | publish inp out chunk =>
    obtain ⟨rfl, rest, hrest⟩ := hread
    have hlen : chunk.length ≤ rx.count := by
      rw [← length_contents, ← hrest, List.length_append]
      omega
    have hc : (rx.setOut (rx.out + chunk.length)).contents = rest := by
      rw [contents_setOut rx hlen, ← hrest, List.drop_left]
    simp only [readStep] at hs
    split_ifs at hs <;> cases hs <;> exact ⟨⟨trivial, trivial⟩, by simp [hc, ← hrest, Task.got, Out.returned, popped]⟩
  | ret =>
    cases hs
    refine ⟨⟨trivial, trivial⟩, ?_⟩
    by_cases hg : c.got = []
    · rw [if_neg (not_not.2 hg)]
      cases c.nonblock <;> simp [Task.got, Out.returned, hg]
    · simp [Task.got, Out.returned, hg]
  | enable =>
    cases hs
    exact ⟨⟨trivial, trivial⟩, rfl⟩
  | _ =>
    simp only [readStep] at hs
    split_ifs at hs <;> cases hs <;> exact ⟨⟨trivial, trivial⟩, rfl⟩

/-- A write leaves the receive side alone. -/
theorem writeStep_frame {s s' : Jtag} {c : WriteCall} {pc : WritePc} {o : Out} (ht : s.task = .write c pc)
    (hs : s.writeStep c pc = .ok (s', o)) :
    s'.rx = s.rx ∧ s'.isr = s.isr ∧ s'.uart.rfifo = s.uart.rfifo ∧ s'.uart.rvalid = s.uart.rvalid ∧
      s'.uart.rdata = s.uart.rdata ∧ o.returned = [] ∧ s'.hostInactive = s.hostInactive ∧
      (s'.task = .idle ∨ ∃ c' pc', s'.task = .write c' pc') := by
  cases pc with
  | copy inp out n k =>
    simp only [writeStep] at hs
    split at hs
    · cases hp : s.tx.put (inp + k) (c.data.getD (c.sent + k) 0) with
      | error e => rw [hp] at hs; cases hs
      | ok tx =>
        rw [hp] at hs
        cases hs
        exact ⟨rfl, rfl, rfl, rfl, rfl, rfl, rfl, .inr ⟨_, _, rfl⟩⟩
    · cases hs
      exact ⟨rfl, rfl, rfl, rfl, rfl, rfl, rfl, .inr ⟨_, _, rfl⟩⟩
  | spin out =>
    simp only [writeStep] at hs
    split_ifs at hs <;> cases hs
    · exact ⟨rfl, rfl, rfl, rfl, rfl, rfl, rfl, .inr ⟨_, _, ht⟩⟩
    · exact ⟨rfl, rfl, rfl, rfl, rfl, rfl, rfl, .inr ⟨_, _, rfl⟩⟩
  | loadIn =>
    cases hs
    exact ⟨rfl, rfl, rfl, rfl, rfl, rfl, rfl, .inr ⟨_, _, rfl⟩⟩
  | ret =>
    cases hs
    exact ⟨rfl, rfl, rfl, rfl, rfl, rfl, rfl, .inl rfl⟩
  | _ =>
    simp only [writeStep] at hs
    split_ifs at hs <;> cases hs <;> exact ⟨rfl, rfl, rfl, rfl, rfl, rfl, rfl, .inr ⟨_, _, rfl⟩⟩

theorem writeStep_rx {s s' : Jtag} {c : WriteCall} {pc : WritePc} {o : Out} (h : RxInv s)
    (ht : s.task = .write c pc) (hs : s.writeStep c pc = .ok (s', o)) :
    RxInv s' ∧ s.inFlight = o.returned ++ s'.inFlight := by
  obtain ⟨hrx, hisr, hfifo, hv, hd, hret, -, hidle⟩ := writeStep_frame ht hs
  have hgot : s'.task.got = s.task.got := by
    rw [ht]
    rcases hidle with h | ⟨c', pc', h⟩ <;> rw [h] <;> rfl
  have hpop : popped s'.uart s'.isr = popped s.uart s.isr := by
    unfold popped
    rw [hisr, hv, hd]
  refine ⟨⟨?_, ?_⟩, ?_⟩
  · rcases hidle with h | ⟨c', pc', h⟩ <;> rw [h] <;> trivial
  · rw [hrx, hisr]
    exact h.room
  · rw [hret, List.nil_append, inFlight, inFlight, hgot, hpop, hrx, hfifo]

/-! ## Every step -/

theorem received_concat (outs : List Out) (o : Out) : received (outs ++ [o]) = received outs ++ o.received := by
  simp [received]

theorem returned_concat (outs : List Out) (o : Out) : returned (outs ++ [o]) = returned outs ++ o.returned := by
  simp [returned]

theorem taskStep_rx {s s' : Jtag} {o : Out} (h : RxInv s) (hi : s.isr = none) (hs : s.taskStep = .ok (s', o)) :
    RxInv s' ∧ s.inFlight = o.returned ++ s'.inFlight := by
  unfold taskStep at hs
  split at hs
  · next alarm ht =>
    cases hs
    refine ⟨⟨trivial, h.room⟩, ?_⟩
    rw [inFlight, ht]
    rfl
  · cases hs
    exact ⟨h, rfl⟩
  · next c pc ht => exact readStep_rx h hi ht hs
  · next c pc ht => exact writeStep_rx h ht hs

/-- **What goes in comes out**: a step keeps the bytes taken from the host equal to the bytes returned
and those in flight. -/
theorem step_rx {s s' : Jtag} {e : Step} {o : Out} (h : RxInv s) (hs : s.step e = .ok (s', o)) :
    RxInv s' ∧ s.inFlight ++ o.received = o.returned ++ s'.inFlight := by
  cases e with
  | cpu =>
    simp only [step] at hs
    split at hs
    · next pc hi =>
      cases hr : s.isrStep pc with
      | error e => rw [hr] at hs; cases hs
      | ok s₁ =>
        rw [hr] at hs
        cases hs
        obtain ⟨h', hf⟩ := isrStep_rx h hi hr
        exact ⟨h', by rw [hf]; exact List.append_nil _⟩
    · next hi =>
      obtain ⟨h', hf⟩ := taskStep_rx h hi hs
      rw [(taskStep_host hs).1, List.append_nil]
      exact ⟨h', hf⟩
  | irq =>
    simp only [step] at hs
    split at hs
    · cases hs
      exact ⟨h, List.append_nil _⟩
    · next hi =>
      split at hs <;> cases hs
      · refine ⟨⟨h.reading, trivial⟩, ?_⟩
        rw [inFlight, hi]
        exact List.append_nil _
      · exact ⟨h, List.append_nil _⟩
  | tick =>
    simp only [step] at hs
    split at hs
    · cases hs
      exact ⟨h, List.append_nil _⟩
    · next hi =>
      cases hs
      refine ⟨⟨h.reading, trivial⟩, ?_⟩
      rw [inFlight, hi]
      exact List.append_nil _
  | read space nonblock =>
    simp only [step] at hs
    split at hs
    · next hi ht =>
      cases hs
      refine ⟨⟨?_, h.room⟩, ?_⟩
      · show Reading s.rx (.read _ (if 0 < space then _ else _))
        split <;> trivial
      · rw [inFlight, ht]
        exact List.append_nil _
    · cases hs
      exact ⟨h, List.append_nil _⟩
  | write data nonblock =>
    simp only [step] at hs
    split at hs
    · next hi ht =>
      cases hs
      refine ⟨⟨trivial, h.room⟩, ?_⟩
      rw [inFlight, ht]
      exact List.append_nil _
    · cases hs
      exact ⟨h, List.append_nil _⟩
  | hostSend c =>
    cases hs
    refine ⟨⟨h.reading, h.room⟩, ?_⟩
    by_cases hlt : s.uart.rfifo.bytes.length < 64
    · simp [inFlight, Uart.hostSend, Fifo.push, Fifo.used, hlt, Out.received, Out.returned, popped]
    · simp [inFlight, Uart.hostSend, Fifo.push, Fifo.used, hlt, Out.received, Out.returned, popped]
  | hostPause =>
    cases hs
    exact ⟨⟨h.reading, h.room⟩, List.append_nil _⟩
  | hostTake =>
    cases hs
    refine ⟨⟨h.reading, h.room⟩, ?_⟩
    split <;> exact List.append_nil _
  | clock =>
    cases hs
    exact ⟨⟨h.reading, h.room⟩, List.append_nil _⟩

theorem reset_rx (alarm : Bool) : RxInv (reset alarm) := ⟨trivial, trivial⟩

end Jtag
end NuttyNios
