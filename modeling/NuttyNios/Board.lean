import NuttyNios.Alarm
import NuttyNios.Files
import NuttyNios.JtagRun
import NuttyNios.Timer
/-!
# The board: timer, interrupts, driver and start-up

| here | there |
| --- | --- |
| `Config.register`   | `alt_irq_register` (HAL/src/alt_irq_register.c) |
| `Board.pending`     | `alt_irq_pending`: the `ipending` register |
| `Board.dispatch`    | the scan of `alt_irq_handler` (HAL/src/alt_irq_handler.c) |
| `Board.cpu`         | a statement: of the interrupt routines, of the start-up, or of the driver's caller |
| `plan`              | `alt_sys_init`, `alt_io_redirect`, and `main` up to its loop (`timer_init` is the last six) |

`alt_avalon_timer_sc_irq` makes timer0 the system clock; then `timer_init` takes its interrupt for
`get_accler_isr`. A statement takes at least one clock, `Step.clock` is one more. What the statements between do not
touch here (the filter coefficients, the accelerometer, the time stamp timer) is left out.
-/

namespace NuttyNios
open Buffer

def NIOS2_NIRQ : Nat := 32

instance : NeZero NIOS2_NIRQ := ⟨by decide⟩

def JTAG_UART_IRQ : Fin NIOS2_NIRQ := 0
def TIMER0_IRQ : Fin NIOS2_NIRQ := 2

/-- `ALTERA_AVALON_TIMER_FREQ (TIMER0_FREQ, TIMER0_PERIOD, TIMER0_PERIOD_UNITS)` -/
def TIMER0_TICKS_PER_SEC : BitVec 32 := 20000#32

/-- The interrupt handlers that are registered. -/
inductive Handler
  | timerSc
  | jtagUart
  | getAcclerIsr
deriving DecidableEq

/-- The devices on `alt_dev_list`. -/
inductive Dev
  | null
  | jtagUart
  | accelerometerSpi
deriving DecidableEq

/-- `"/dev/jtag_uart"`, which is `ALT_STDIN`, `ALT_STDOUT` and `ALT_STDERR`. -/
def JTAG_UART_NAME : List UInt8 :=
  ['/', 'd', 'e', 'v', '/', 'j', 't', 'a', 'g', '_', 'u', 'a', 'r', 't'].map Char.toUInt8

def findDev (name : List UInt8) : Option Dev :=
  if name = ['/', 'd', 'e', 'v', '/', 'n', 'u', 'l', 'l'].map Char.toUInt8 then some .null
  else if name = JTAG_UART_NAME then some .jtagUart
  else if name = ['/', 'd', 'e', 'v', '/', 'a', 'c', 'c', 'e', 'l', 'e', 'r', 'o', 'm', 'e', 't', 'e', 'r', '_',
    's', 'p', 'i'].map Char.toUInt8 then some .accelerometerSpi
  else none

/-- The statements of the start-up. -/
inductive Boot
  | sysclkInit
  | iowr (address : BitVec 3) (data : BitVec 16)
  | register (id : Fin NIOS2_NIRQ) (handler : Handler)
  | jtagUartInit
  | ioRedirect
  | fcntl
deriving DecidableEq

def plan : List Boot := [.sysclkInit, .iowr TIMER_CONTROL_REG 7#16, .register TIMER0_IRQ .timerSc, .jtagUartInit,
  .ioRedirect, .fcntl, .iowr TIMER_CONTROL_REG 3#16, .iowr TIMER_STATUS_REG 0#16, .iowr TIMER_PERIODL_REG 0xC4F0#16,
  .iowr TIMER_PERIODH_REG 0#16, .register TIMER0_IRQ .getAcclerIsr, .iowr TIMER_CONTROL_REG 7#16]

/-- What the start-up sets: `alt_irq`, `alt_irq_active`, which is the `ienable` register, and the descriptors. -/
structure Config where
  handler : Fin NIOS2_NIRQ → Option Handler
  active : BitVec 32
  files : Files Dev

namespace Config

def reset : Config := ⟨fun _ => none, 0#32, Files.reset .null⟩

def register (c : Config) (id : Fin NIOS2_NIRQ) (handler : Handler) : Config :=
  { c with handler := Function.update c.handler id (some handler), active := c.active ||| BitVec.twoPow 32 id.val }

def exec (c : Config) : Boot → Except FileFault Config
  | .register id handler => .ok (c.register id handler)
  | .jtagUartInit => .ok (c.register JTAG_UART_IRQ .jtagUart)
  | .ioRedirect => do
    let files ← c.files.ioRedirect findDev JTAG_UART_NAME JTAG_UART_NAME JTAG_UART_NAME (0, 0, 0)
    return { c with files }
  | .fcntl => do
    let (files, _) ← c.files.setfl 0 O_NONBLOCK
    return { c with files }
  | .sysclkInit | .iowr _ _ => .ok c

/-- `fd->fd_flags & O_NONBLOCK` -/
def nonblock (c : Config) (fd : Fin ALT_MAX_FD) : Bool := (c.files.list fd).fdFlags &&& O_NONBLOCK ≠ 0#32

end Config

/-- Where `alt_irq_handler` is. -/
inductive IrqPc
  /-- Before its first scan. -/
  | enter
  /-- `active = alt_irq_pending ()`, the condition of its loop. -/
  | again
  /-- In `alt_avalon_timer_sc_irq`, before `alt_tick`. -/
  | tick
  /-- In `altera_avalon_jtag_uart_irq` or `altera_avalon_jtag_uart_timeout`. -/
  | driver
  /-- In `get_accler_isr`, after its write to the status register. -/
  | sample
deriving DecidableEq

inductive BoardFault
  | driver (f : Fault)
  | files (f : FileFault)
  /-- A null pointer is called. -/
  | null
  /-- A loop does not end. -/
  | endless

structure Board where
  timer : Timer
  jtag : Jtag
  alarms : Alarms Unit Unit
  config : Config
  boot : List Boot
  irq : Option IrqPc

inductive BoardStep
  /-- A statement. -/
  | cpu
  /-- The exception entry, if an interrupt is pending. -/
  | interrupt
  | clock
  /-- `read (STDIN_FILENO, ..)` -/
  | read (len : Nat)
  /-- `write (STDOUT_FILENO, ..)` -/
  | write (data : List UInt8)
  | hostSend (c : UInt8)
  | hostPause
  | hostTake
deriving DecidableEq

/-- What a step does: a step of the driver and its device, or a sample. -/
inductive BoardOut
  | driver (e : Jtag.Step) (o : Jtag.Out)
  | sample

namespace Board

/-- After `alt_irq_init`. -/
def reset : Board where
  timer := Timer.reset
  jtag := Jtag.reset true
  alarms := Alarms.reset fun _ => ()
  config := Config.reset
  boot := plan
  irq := none

def pending (b : Board) : BitVec 32 :=
  ((if b.jtag.uart.irq then BitVec.twoPow 32 JTAG_UART_IRQ.val else 0#32) |||
    (if b.timer.irq then BitVec.twoPow 32 TIMER0_IRQ.val else 0#32)) &&& b.config.active

def clock (b : Board) (w : Option BusWrite) : Board := { b with timer := b.timer.clock w }

def drive (b : Board) (e : Jtag.Step) : Except BoardFault (Board × List BoardOut) :=
  match b.jtag.step e with
  | .ok (jtag, o) => .ok ({ b with jtag }, [.driver e o])
  | .error f => .error (.driver f)

/-- The handler of the first interrupt that is pending is called. -/
def dispatch (b : Board) : Except BoardFault (Board × List BoardOut) :=
  match (List.finRange NIOS2_NIRQ).find? fun i => b.pending.getLsbD i.val with
  | none => .error .endless
  | some i => match b.config.handler i with
    | none => .error .null
    | some .jtagUart => { b.clock none with irq := some .driver }.drive .irq
    | some .timerSc => .ok ({ b.clock (some (TIMER_STATUS_REG, 0#16)) with irq := some .tick }, [])
    | some .getAcclerIsr => .ok ({ b.clock (some (TIMER_STATUS_REG, 0#16)) with irq := some .sample }, [])

/-- The effect of a statement of the start-up, but for a write to the timer. -/
def exec (b : Board) (st : Boot) : Except BoardFault (Board × List BoardOut) :=
  match b.config.exec st with
  | .error f => .error (.files f)
  | .ok config => match st with
    | .sysclkInit => .ok ({ b with config, alarms := b.alarms.sysclkInit TIMER0_TICKS_PER_SEC }, [])
    | .jtagUartInit => match b.alarms.start (some ()) b.alarms.tickRate () with
      | .ok alarms => { b with config, alarms, jtag := { b.jtag with task := .init true } }.drive .cpu
      | .error _ => { b with config, jtag := { b.jtag with task := .init false } }.drive .cpu
    | _ => .ok ({ b with config }, [])

def Boot.write : Boot → Option BusWrite
  | .iowr address data => some (address, data)
  | _ => none

/-- The only alarm is the driver's: the loop of `alt_tick` is left after two rounds. -/
def cpu (b : Board) : Except BoardFault (Board × List BoardOut) :=
  match b.irq with
  | none => match b.boot with
    | [] => (b.clock none).drive .cpu
    | st :: boot => { b.clock (Boot.write st) with boot }.exec st
  | some .enter => b.dispatch
  | some .again => if b.pending = 0#32 then .ok ({ b.clock none with irq := none }, []) else b.dispatch
  | some .tick => match b.alarms.tick (fun _ w => (w, [], b.alarms.tickRate)) 2 () with
    | none => .error .endless
    | some (alarms, _, []) => .ok ({ b.clock none with alarms, irq := some .again }, [])
    | some (alarms, _, _ :: _) => { b.clock none with alarms, irq := some .driver }.drive .tick
  | some .driver => match b.jtag.isr with
    | none => .ok ({ b.clock none with irq := some .again }, [])
    | some _ => (b.clock none).drive .cpu
  | some .sample => .ok ({ b.clock none with irq := some .again }, [.sample])

/-- The program's loop runs. -/
def calling (b : Board) : Bool := b.irq.isNone && b.boot.isEmpty

def step (b : Board) : BoardStep → Except BoardFault (Board × List BoardOut)
  | .cpu => b.cpu
  | .interrupt =>
    if b.irq = none ∧ b.pending ≠ 0#32 then .ok ({ b.clock none with irq := some .enter }, [])
    else .ok (b.clock none, [])
  | .clock => (b.clock none).drive .clock
  | .read len => if b.calling then b.drive (.read len (b.config.nonblock 0)) else .ok (b, [])
  | .write data => if b.calling then b.drive (.write data (b.config.nonblock 1)) else .ok (b, [])
  | .hostSend c => b.drive (.hostSend c)
  | .hostPause => b.drive .hostPause
  | .hostTake => b.drive .hostTake

end Board

def board : Machine Board BoardStep (List BoardOut) BoardFault := ⟨Board.step⟩

end NuttyNios
