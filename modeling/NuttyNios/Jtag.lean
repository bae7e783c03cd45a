import NuttyNios.Lib.Machine
import NuttyNios.Lib.RingBuffer
import NuttyNios.Uart
/-!
# The JTAG UART driver (firmware02_bsp/drivers/src/altera_avalon_jtag_uart_{init,read,write}.c)

| here | there |
| --- | --- |
| `Jtag`                    | the registers, `altera_avalon_jtag_uart_state`, and where routine and caller are |
| `Jtag.isrStep`            | a statement of `altera_avalon_jtag_uart_irq` and `altera_avalon_jtag_uart_timeout` |
| `Jtag.readStep`           | a statement of `altera_avalon_jtag_uart_read` |
| `Jtag.writeStep`          | a statement of `altera_avalon_jtag_uart_write` |
| `jtagUart`                | all of it, with the host: any order of steps |

This is the interrupt-driven driver without an operating system. The interrupt routine runs to its
end before the caller goes on; the host acts at any time. A statement that touches a volatile
variable or a register is a step of its own, and so is each byte of a `memcpy`. The section between
`alt_irq_disable_all` and `alt_irq_enable_all` is one step.
-/

namespace NuttyNios
open Buffer

def BUF_LEN : Nat := 2048
def DEFAULT_TIMEOUT : Nat := 10
def INT_MAX : Nat := 2147483647

/-- What a call returns instead of a count: -EWOULDBLOCK or -EIO. -/
inductive Errno
  | ewouldblock
  | eio
deriving DecidableEq

namespace Jtag

/-- Where the interrupt routine is. -/
inductive IsrPc
  /-- `control = IORD(CONTROL)` -/
  | top
  /-- The inner `for`: is there space in the buffer? -/
  | rxCheck (control data : BitVec 32)
  /-- `data = IORD(DATA)`, first cycle. -/
  | rxPop (control : BitVec 32)
  /-- Second cycle, and the store to `rx_buf`. -/
  | rxData (control : BitVec 32)
  /-- After the inner `for`. -/
  | rxDone (control data : BitVec 32)
  /-- `if (control & WI)` -/
  | tx (control : BitVec 32)
  | txLoop (space : Nat)
  | txDone (space : Nat)
  /-- `altera_avalon_jtag_uart_timeout` -/
  | timeout
  /-- Its branch for a host that was active. -/
  | timeoutClear

/-- Where `altera_avalon_jtag_uart_read` is. -/
inductive ReadPc
  /-- `in = sp->rx_in` -/
  | loadIn
  /-- `out = sp->rx_out`, and `n`. -/
  | loadOut (inp : Nat)
  /-- `memcpy(ptr, sp->rx_buf + out, n)`, some bytes copied. -/
  | copy (inp out n : Nat) (chunk : List UInt8)
  /-- `sp->rx_out = (out + n) % BUF_LEN` -/
  | publish (inp out : Nat) (chunk : List UInt8)
  /-- `if (ptr != buffer) break;` and `if (flags & O_NONBLOCK) break;` -/
  | check (inp : Nat)
  /-- `while (in == sp->rx_in && sp->host_inactive < sp->timeout)` -/
  | spin (inp : Nat)
  /-- `if (in == sp->rx_in) break;` -/
  | recheck (inp : Nat)
  /-- The receive interrupt is enabled. -/
  | enable
  | ret

/-- Where `altera_avalon_jtag_uart_write` is. -/
inductive WritePc
  /-- `in = sp->tx_in` -/
  | loadIn
  /-- `out = sp->tx_out`, and `n`. -/
  | loadOut (inp : Nat)
  /-- `memcpy(sp->tx_buf + in, ptr, n)`, `k` bytes copied. -/
  | copy (inp out n k : Nat)
  /-- `sp->tx_in = (in + n) % BUF_LEN` -/
  | publish (inp out n : Nat)
  /-- The transmit interrupt is enabled. -/
  | enable (out : Nat)
  /-- `while (out == sp->tx_out && sp->host_inactive < sp->timeout)` -/
  | spin (out : Nat)
  /-- `if (sp->host_inactive) break;` -/
  | active
  | ret

/-- The arguments and locals of a read: `space`, `flags & O_NONBLOCK`, and the bytes between
`buffer` and `ptr`. -/
structure ReadCall where
  space : Nat
  nonblock : Bool
  got : List UInt8

/-- Those of a write: all the bytes, and how many of them lie before `ptr`. -/
structure WriteCall where
  data : List UInt8
  nonblock : Bool
  sent : Nat

/-- `count` -/
def WriteCall.count (c : WriteCall) : Nat := c.data.length - c.sent

/-- What the caller is doing. -/
inductive Task
  /-- `altera_avalon_jtag_uart_init`; whether `alt_alarm_start` succeeds. -/
  | init (alarm : Bool)
  | idle
  | read (c : ReadCall) (pc : ReadPc)
  | write (c : WriteCall) (pc : WritePc)

/-- What can happen next. -/
inductive Step
  /-- A statement of the interrupt routine if it runs, else of the caller. -/
  | cpu
  /-- The processor takes the interrupt. -/
  | irq
  /-- The alarm goes off. -/
  | tick
  | read (space : Nat) (nonblock : Bool)
  | write (data : List UInt8) (nonblock : Bool)
  | hostSend (c : UInt8)
  | hostPause
  | hostTake
  | clock
deriving DecidableEq

/-- What a step shows outside. -/
inductive Out
  | quiet
  /-- A byte from the host was taken into the receive FIFO. -/
  | hostSent (c : UInt8)
  /-- The host took a byte. -/
  | hostTook (c : UInt8)
  /-- A read returned. -/
  | read (r : Except Errno (List UInt8))
  /-- A write of some bytes returned. -/
  | wrote (data : List UInt8) (r : Except Errno Nat)

end Jtag

structure Jtag where
  uart : Uart
  timeout : Nat
  irqEnable : BitVec 32
  hostInactive : Nat
  rx : RingBuffer UInt8 BUF_LEN
  tx : RingBuffer UInt8 BUF_LEN
  isr : Option Jtag.IsrPc
  task : Jtag.Task

namespace Jtag

def zeroRing : RingBuffer UInt8 BUF_LEN := ⟨Vector.replicate BUF_LEN 0, 0, 0, by decide, by decide⟩

/-- Out of reset: the device has not been initialised. -/
def reset (alarm : Bool) : Jtag where
  uart := Uart.reset
  timeout := DEFAULT_TIMEOUT
  irqEnable := 0
  hostInactive := 0
  rx := zeroRing
  tx := zeroRing
  isr := none
  task := .init alarm

/-- `sp->irq_enable = w`, and `IOWR(CONTROL, sp->irq_enable)`. -/
def setIrqEnable (s : Jtag) (w : BitVec 32) : Jtag := { s with irqEnable := w, uart := s.uart.writeControl w }

/-- A statement of the interrupt routine. -/
def isrStep (s : Jtag) : IsrPc → Except Fault Jtag
  | .top =>
    let control := s.uart.controlWord
    let s := { s with uart := s.uart.clock }
    if control &&& (CONTROL_RI_MSK ||| CONTROL_WI_MSK) = 0#32 then .ok { s with isr := none }
    else if control &&& CONTROL_RI_MSK ≠ 0#32 then
      .ok { s with isr := some (.rxCheck control (1#32 <<< DATA_RAVAIL_OFST)) }
    else .ok { s with isr := some (.tx control) }
  | .rxCheck control data =>
    if (s.rx.inp + 1) % BUF_LEN = s.rx.out then .ok { s with isr := some (.rxDone control data) }
    else .ok { s with isr := some (.rxPop control) }
  | .rxPop control => .ok { s with uart := s.uart.popData, isr := some (.rxData control) }
  | .rxData control =>
    let data := s.uart.dataWord
    let s := { s with uart := s.uart.clock }
    if data &&& DATA_RVALID_MSK = 0#32 then .ok { s with isr := some (.rxDone control data) }
    else do
      let rx ← s.rx.put s.rx.inp (.ofBitVec ((data &&& DATA_DATA_MSK).setWidth 8))
      return { s with rx := rx.setIn (s.rx.inp + 1), isr := some (.rxCheck control data) }
  | .rxDone control data =>
    if data &&& DATA_RAVAIL_MSK ≠ 0#32 then
      .ok { s.setIrqEnable (s.irqEnable &&& ~~~CONTROL_RE_MSK) with isr := some (.tx control) }
    else .ok { s with isr := some (.tx control) }
  | .tx control =>
    if control &&& CONTROL_WI_MSK ≠ 0#32 then
      .ok { s with isr := some (.txLoop ((control &&& CONTROL_WSPACE_MSK) >>> CONTROL_WSPACE_OFST).toNat) }
    else .ok { s with isr := some .top }
  | .txLoop space =>
    if 0 < space ∧ s.tx.out ≠ s.tx.inp then do
      let c ← s.tx.get s.tx.out
      return { s with uart := s.uart.writeData c, tx := s.tx.setOut (s.tx.out + 1), isr := some (.txLoop (space - 1)) }
    else .ok { s with isr := some (.txDone space) }
  | .txDone space =>
    if 0 < space then .ok { s.setIrqEnable (s.irqEnable &&& ~~~CONTROL_WE_MSK) with isr := some .top }
    else .ok { s with isr := some .top }
  | .timeout =>
    let control := s.uart.controlWord
    let s := { s with uart := s.uart.clock }
    if control &&& CONTROL_AC_MSK ≠ 0#32 then .ok { s with isr := some .timeoutClear }
    else if s.hostInactive < INT_MAX - 2 then .ok { s with hostInactive := s.hostInactive + 1, isr := none }
    else .ok { s with isr := none }
  | .timeoutClear =>
    .ok { s with uart := s.uart.writeControl (s.irqEnable ||| CONTROL_AC_MSK), hostInactive := 0, isr := none }

/-- A statement of a read. -/
def readStep (s : Jtag) (c : ReadCall) : ReadPc → Except Fault (Jtag × Out)
  | .loadIn => .ok ({ s with task := .read c (.loadOut s.rx.inp) }, .quiet)
  | .loadOut inp =>
    let n := if inp ≥ s.rx.out then inp - s.rx.out else BUF_LEN - s.rx.out
    if n = 0 then .ok ({ s with task := .read c (.check inp) }, .quiet)
    else .ok ({ s with task := .read c (.copy inp s.rx.out (if n > c.space then c.space else n) []) }, .quiet)
  | .copy inp out n chunk =>
    if chunk.length < n then do
      let x ← s.rx.get (out + chunk.length)
      return ({ s with task := .read c (.copy inp out n (chunk ++ [x])) }, .quiet)
    else .ok ({ s with task := .read c (.publish inp out chunk) }, .quiet)
  | .publish inp out chunk =>
    let c := { c with got := c.got ++ chunk, space := c.space - chunk.length }
    let s := { s with rx := s.rx.setOut (out + chunk.length) }
    if 0 < c.space then .ok ({ s with task := .read c .loadIn }, .quiet)
    else .ok ({ s with task := .read c (.check inp) }, .quiet)
  | .check inp =>
    if c.got ≠ [] then .ok ({ s with task := .read c .enable }, .quiet)
    else if c.nonblock then .ok ({ s with task := .read c .ret }, .quiet)
    else .ok ({ s with task := .read c (.spin inp) }, .quiet)
  | .spin inp =>
    if inp = s.rx.inp ∧ s.hostInactive < s.timeout then .ok (s, .quiet)
    else .ok ({ s with task := .read c (.recheck inp) }, .quiet)
  | .recheck inp =>
    if inp = s.rx.inp then .ok ({ s with task := .read c .ret }, .quiet)
    else .ok ({ s with task := .read c .loadIn }, .quiet)
  | .enable => .ok ({ s.setIrqEnable (s.irqEnable ||| CONTROL_RE_MSK) with task := .read c .ret }, .quiet)
  | .ret =>
    .ok ({ s with task := .idle },
      .read (if c.got ≠ [] then .ok c.got else if c.nonblock then .error .ewouldblock else .error .eio))

/-- A statement of a write. -/
def writeStep (s : Jtag) (c : WriteCall) : WritePc → Except Fault (Jtag × Out)
  | .loadIn => .ok ({ s with task := .write c (.loadOut s.tx.inp) }, .quiet)
  | .loadOut inp =>
    let out := s.tx.out
    let n := if inp < out then out - 1 - inp else if out > 0 then BUF_LEN - inp else BUF_LEN - 1 - inp
    if n = 0 then .ok ({ s with task := .write c (.enable out) }, .quiet)
    else .ok ({ s with task := .write c (.copy inp out (if n > c.count then c.count else n) 0) }, .quiet)
  | .copy inp out n k =>
    if k < n then do
      let tx ← s.tx.put (inp + k) (c.data.getD (c.sent + k) 0)
      return ({ s with tx, task := .write c (.copy inp out n (k + 1)) }, .quiet)
    else .ok ({ s with task := .write c (.publish inp out n) }, .quiet)
  | .publish inp out n =>
    let c := { c with sent := c.sent + n }
    let s := { s with tx := s.tx.setIn (inp + n) }
    if 0 < c.count then .ok ({ s with task := .write c .loadIn }, .quiet)
    else .ok ({ s with task := .write c (.enable out) }, .quiet)
  | .enable out =>
    let s := s.setIrqEnable (s.irqEnable ||| CONTROL_WE_MSK)
    if 0 < c.count ∧ c.nonblock = false then .ok ({ s with task := .write c (.spin out) }, .quiet)
    else .ok ({ s with task := .write c .ret }, .quiet)
  | .spin out =>
    if out = s.tx.out ∧ s.hostInactive < s.timeout then .ok (s, .quiet)
    else .ok ({ s with task := .write c .active }, .quiet)
  | .active =>
    if s.hostInactive ≠ 0 then .ok ({ s with task := .write c .ret }, .quiet)
    else .ok ({ s with task := .write c .loadIn }, .quiet)
  | .ret =>
    .ok ({ s with task := .idle }, .wrote c.data
      (if c.sent ≠ 0 then .ok c.sent else if c.nonblock then .error .ewouldblock else .error .eio))

/-- A statement of the caller. -/
def taskStep (s : Jtag) : Except Fault (Jtag × Out) :=
  match s.task with
  | .init alarm =>
    .ok ({ s.setIrqEnable CONTROL_RE_MSK with hostInactive := 0, timeout := if alarm then s.timeout else INT_MAX,
                                              task := .idle }, .quiet)
  | .idle => .ok (s, .quiet)
  | .read c pc => s.readStep c pc
  | .write c pc => s.writeStep c pc

def step (s : Jtag) : Step → Except Fault (Jtag × Out)
  | .cpu => match s.isr with
    | some pc => do
      let s ← s.isrStep pc
      return (s, .quiet)
    | none => s.taskStep
  | .irq => match s.isr with
    | some _ => .ok (s, .quiet)
    | none => if s.uart.irq then .ok ({ s with isr := some .top }, .quiet) else .ok (s, .quiet)
  | .tick => match s.isr with
    | some _ => .ok (s, .quiet)
    | none => .ok ({ s with isr := some .timeout }, .quiet)
  | .read space nonblock => match s.isr, s.task with
    | none, .idle => .ok ({ s with task := .read ⟨space, nonblock, []⟩ (if 0 < space then .loadIn else .ret) }, .quiet)
    | _, _ => .ok (s, .quiet)
  | .write data nonblock => match s.isr, s.task with
    | none, .idle =>
      .ok ({ s with task := .write ⟨data, nonblock, 0⟩ (if 0 < data.length then .loadIn else .enable 0) }, .quiet)
    | _, _ => .ok (s, .quiet)
  | .hostSend c =>
    .ok ({ s with uart := s.uart.hostSend c }, if s.uart.rfifo.used < 64 then .hostSent c else .quiet)
  | .hostPause => .ok ({ s with uart := s.uart.hostPause }, .quiet)
  | .hostTake =>
    .ok ({ s with uart := s.uart.hostTake }, match s.uart.wfifo.bytes with
      | c :: _ => .hostTook c
      | [] => .quiet)
  | .clock => .ok ({ s with uart := s.uart.clock }, .quiet)

/-! ## What the steps show -/

/-- The byte the receive FIFO took from the host. -/
def Out.received : Out → List UInt8
  | .hostSent c => [c]
  | _ => []

/-- The byte the host took. -/
def Out.transmitted : Out → List UInt8
  | .hostTook c => [c]
  | _ => []

/-- The bytes a read handed to its caller. -/
def Out.returned : Out → List UInt8
  | .read (.ok bytes) => bytes
  | _ => []

/-- The bytes a write took from its caller. -/
def Out.accepted : Out → List UInt8
  | .wrote data (.ok n) => data.take n
  | _ => []

/-- The bytes a write that returns was given. -/
def Out.written : Out → List UInt8
  | .wrote data _ => data
  | _ => []

def received (outs : List Out) : List UInt8 := (outs.map Out.received).flatten
def transmitted (outs : List Out) : List UInt8 := (outs.map Out.transmitted).flatten
def returned (outs : List Out) : List UInt8 := (outs.map Out.returned).flatten
def accepted (outs : List Out) : List UInt8 := (outs.map Out.accepted).flatten
def written (outs : List Out) : List UInt8 := (outs.map Out.written).flatten

/-- Only the host's steps show its bytes. -/
theorem taskStep_host {s s' : Jtag} {o : Out} (hs : s.taskStep = .ok (s', o)) :
    o.received = [] ∧ o.transmitted = [] := by
  unfold taskStep at hs
  split at hs
  · cases hs
    exact ⟨rfl, rfl⟩
  · cases hs
    exact ⟨rfl, rfl⟩
  · next c pc _ =>
    cases pc with
    | copy inp out n chunk =>
      simp only [readStep] at hs
      split at hs
      · cases hg : s.rx.get (out + chunk.length) with
        | error e => rw [hg] at hs; cases hs
        | ok x =>
          rw [hg] at hs
          cases hs
          exact ⟨rfl, rfl⟩
      · cases hs
        exact ⟨rfl, rfl⟩
    | loadIn | enable | ret =>
      cases hs
      exact ⟨rfl, rfl⟩
    | _ =>
      simp only [readStep] at hs
      split_ifs at hs <;> cases hs <;> exact ⟨rfl, rfl⟩
  · next c pc _ =>
    cases pc with
    | copy inp out n k =>
      simp only [writeStep] at hs
      split at hs
      · cases hp : s.tx.put (inp + k) (c.data.getD (c.sent + k) 0) with
        | error e => rw [hp] at hs; cases hs
        | ok tx =>
          rw [hp] at hs
          cases hs
          exact ⟨rfl, rfl⟩
      · cases hs
        exact ⟨rfl, rfl⟩
    | loadIn | ret =>
      cases hs
      exact ⟨rfl, rfl⟩
    | _ =>
      simp only [writeStep] at hs
      split_ifs at hs <;> cases hs <;> exact ⟨rfl, rfl⟩

end Jtag

/-- The driver, the device and the host. -/
def jtagUart : Machine Jtag Jtag.Step Jtag.Out Fault := ⟨Jtag.step⟩

end NuttyNios
