import NuttyNios.Lib.Buffer
/-!
# The JTAG UART's registers (nios2system/synthesis/submodules/nios2system_jtag_uart.v)

| here | there |
| --- | --- |
| `Uart`                               | the registers the bus and the interrupt line depend on, and the two FIFOs |
| `dataWord`, `controlWord`            | `av_readdata` for the data and the control register |
| `popData`, then `dataWord`           | the two cycles of a read of the data register |
| `writeData`, `writeControl`          | a write to each of them |
| `hostSend`, `hostPause`, `hostTake`  | `t_ena`, `t_pause` and `r_ena` of the JTAG side |

A bus access takes two cycles (`av_waitrequest`), and `fifo_AE` and `fifo_AF` follow the FIFOs one
cycle late. What happens on the JTAG side meanwhile is a step of its own, so that it can come between
the two cycles of a read. The driver's masks pick the fields out of the two words: `dataWord_rvalid` and
the lemmas after it.
-/

namespace NuttyNios

/-- An `scfifo` of 64 words, oldest byte first. -/
structure Fifo where
  bytes : List UInt8
  length_le : bytes.length ≤ 64

def Fifo.empty : Fifo := ⟨[], by decide⟩

/-- `{full, usedw}`. -/
def Fifo.used (f : Fifo) : Nat := f.bytes.length

/-- A write request; the FIFO is never asked to take a word when it is full. -/
def Fifo.push (f : Fifo) (c : UInt8) : Fifo :=
  if h : f.bytes.length < 64 then ⟨f.bytes ++ [c], by simpa using h⟩ else f

/-- A read request. -/
def Fifo.pop (f : Fifo) : Fifo := ⟨f.bytes.tail, by have := f.length_le; simp; omega⟩

structure Uart where
  rfifo : Fifo
  wfifo : Fifo
  ienAE : Bool
  ienAF : Bool
  fifoAE : Bool
  fifoAF : Bool
  pauseIrq : Bool
  ac : Bool
  woverflow : Bool
  rvalid : Bool
  rdata : UInt8

def Uart.reset : Uart where
  rfifo := Fifo.empty
  wfifo := Fifo.empty
  ienAE := false
  ienAF := false
  fifoAE := false
  fifoAF := false
  pauseIrq := false
  ac := false
  woverflow := false
  rvalid := false
  rdata := 0

namespace Uart

def ipenAE (u : Uart) : Bool := u.ienAE && u.fifoAE

def ipenAF (u : Uart) : Bool := u.ienAF && (u.pauseIrq || u.fifoAF)

/-- `av_irq` -/
def irq (u : Uart) : Bool := u.ipenAE || u.ipenAF

/-- The low half of both words: `rvalid` to `ipen_AF`, and the last eight bits. -/
def status (u : Uart) (low : BitVec 8) : BitVec 16 :=
  BitVec.ofBool u.rvalid ++ BitVec.ofBool u.woverflow ++ BitVec.ofBool (u.wfifo.used < 64) ++
    BitVec.ofBool (u.rfifo.used ≠ 0) ++ 0#1 ++ BitVec.ofBool u.ac ++ BitVec.ofBool u.ipenAE ++
    BitVec.ofBool u.ipenAF ++ low

/-- `av_readdata` with `read_0`. -/
def dataWord (u : Uart) : BitVec 32 := BitVec.ofNat 16 u.rfifo.used ++ u.status u.rdata.toBitVec

/-- `av_readdata` without. -/
def controlWord (u : Uart) : BitVec 32 :=
  BitVec.ofNat 16 (64 - u.wfifo.used) ++ u.status (0#6 ++ BitVec.ofBool u.ienAE ++ BitVec.ofBool u.ienAF)

/-- A clock edge, as `fifo_AE` and `fifo_AF` see it. -/
def clock (u : Uart) : Uart := { u with fifoAE := u.wfifo.used ≤ 8, fifoAF := 64 - u.rfifo.used ≤ 8 }

/-- The first cycle of a read of the data register. -/
def popData (u : Uart) : Uart :=
  { u with rfifo := u.rfifo.pop, rvalid := u.rfifo.used ≠ 0, rdata := u.rfifo.bytes.headD u.rdata, pauseIrq := false }

def writeData (u : Uart) (c : UInt8) : Uart :=
  { u with wfifo := u.wfifo.push c, woverflow := u.wfifo.used = 64 }.clock

def writeControl (u : Uart) (writedata : BitVec 32) : Uart :=
  { u with ienAF := writedata.getLsbD 0, ienAE := writedata.getLsbD 1,
           ac := u.ac && !writedata.getLsbD 10 }.clock

/-- `t_ena`: a byte from the host, if there is room for it. -/
def hostSend (u : Uart) (c : UInt8) : Uart := { u with rfifo := u.rfifo.push c, ac := true }

/-- `t_pause` -/
def hostPause (u : Uart) : Uart := { u with pauseIrq := u.pauseIrq || u.rfifo.used ≠ 0, ac := true }

/-- `r_ena`: the host takes a byte, if there is one. -/
def hostTake (u : Uart) : Uart := { u with wfifo := u.wfifo.pop }

end Uart

/-! ## The driver's masks (altera_avalon_jtag_uart_regs.h) -/

def DATA_DATA_MSK : BitVec 32 := 0x000000FF#32
def DATA_RVALID_MSK : BitVec 32 := 0x00008000#32
def DATA_RAVAIL_MSK : BitVec 32 := 0xFFFF0000#32
def DATA_RAVAIL_OFST : Nat := 16
def CONTROL_RE_MSK : BitVec 32 := 0x00000001#32
def CONTROL_WE_MSK : BitVec 32 := 0x00000002#32
def CONTROL_RI_MSK : BitVec 32 := 0x00000100#32
def CONTROL_WI_MSK : BitVec 32 := 0x00000200#32
def CONTROL_AC_MSK : BitVec 32 := 0x00000400#32
def CONTROL_WSPACE_MSK : BitVec 32 := 0xFFFF0000#32
def CONTROL_WSPACE_OFST : Nat := 16

namespace Uart

theorem upper_half (hi lo : BitVec 16) : (hi ++ lo) &&& 0xFFFF0000#32 = hi ++ 0#16 := by
  rw [show (0xFFFF0000#32) = 0xFFFF#16 ++ 0#16 by decide, BitVec.and_append]
  congr 1
  · exact BitVec.and_allOnes
  · exact BitVec.and_zero

theorem toNat_upper_half (hi lo : BitVec 16) : (((hi ++ lo) &&& 0xFFFF0000#32) >>> 16).toNat = hi.toNat := by
  rw [upper_half, BitVec.toNat_ushiftRight, BitVec.toNat_append, BitVec.toNat_ofNat, Nat.zero_mod, Nat.or_zero,
    Nat.shiftLeft_shiftRight]

theorem one_bit {x mask : BitVec 32} {k : Nat} (hk : k < 32) (hm : mask = BitVec.twoPow 32 k) :
    x &&& mask ≠ 0#32 ↔ x.getLsbD k = true := by
  have hpow : BitVec.twoPow 32 k ≠ 0#32 := by
    intro h
    have hn := congrArg BitVec.toNat h
    rw [BitVec.toNat_twoPow_of_lt hk] at hn
    exact absurd hn (Nat.two_pow_pos k).ne'
  rw [hm, BitVec.and_twoPow]
  split
  · next h => exact iff_of_true hpow h
  · next h => exact iff_of_false (fun hn => hn rfl) h

theorem dataWord_rvalid (u : Uart) : u.dataWord &&& DATA_RVALID_MSK ≠ 0#32 ↔ u.rvalid = true := by
  rw [one_bit (k := 15) (by decide) (by decide)]
  simp only [dataWord, status, BitVec.getLsbD_append]
  simp

theorem dataWord_ravail (u : Uart) : u.dataWord &&& DATA_RAVAIL_MSK ≠ 0#32 ↔ u.rfifo.bytes ≠ [] := by
  have hle := u.rfifo.length_le
  rw [dataWord, DATA_RAVAIL_MSK, upper_half, Ne, Ne, not_iff_not, ← List.length_eq_zero_iff]
  constructor
  · intro h
    have hn := congrArg (fun w => BitVec.toNat w >>> 16) h
    simp only [BitVec.toNat_append, BitVec.toNat_ofNat, Nat.zero_mod, Nat.or_zero, Nat.shiftLeft_shiftRight] at hn
    unfold Fifo.used at hn
    omega
  · intro h
    rw [Fifo.used, h]
    decide

theorem dataWord_data (u : Uart) : (u.dataWord &&& DATA_DATA_MSK).setWidth 8 = u.rdata.toBitVec := by
  apply BitVec.eq_of_getLsbD_eq
  intro i hi
  simp only [BitVec.getLsbD_setWidth, BitVec.getLsbD_and, dataWord, status, BitVec.getLsbD_append, DATA_DATA_MSK]
  interval_cases i <;> simp

theorem controlWord_ri (u : Uart) : u.controlWord &&& CONTROL_RI_MSK ≠ 0#32 ↔ u.ipenAF = true := by
  rw [one_bit (k := 8) (by decide) (by decide)]
  simp only [controlWord, status, BitVec.getLsbD_append]
  simp

theorem controlWord_wi (u : Uart) : u.controlWord &&& CONTROL_WI_MSK ≠ 0#32 ↔ u.ipenAE = true := by
  rw [one_bit (k := 9) (by decide) (by decide)]
  simp only [controlWord, status, BitVec.getLsbD_append]
  simp

theorem controlWord_ac (u : Uart) : u.controlWord &&& CONTROL_AC_MSK ≠ 0#32 ↔ u.ac = true := by
  rw [one_bit (k := 10) (by decide) (by decide)]
  simp only [controlWord, status, BitVec.getLsbD_append]
  simp

theorem controlWord_irq (u : Uart) : u.controlWord &&& (CONTROL_RI_MSK ||| CONTROL_WI_MSK) = 0#32 ↔ u.irq = false := by
  rw [BitVec.and_or_distrib_left, BitVec.or_eq_zero_iff, irq, Bool.or_eq_false_iff, and_comm]
  refine and_congr ?_ ?_
  · rw [← Bool.not_eq_true, ← controlWord_wi, not_not]
  · rw [← Bool.not_eq_true, ← controlWord_ri, not_not]

theorem controlWord_wspace (u : Uart) :
    ((u.controlWord &&& CONTROL_WSPACE_MSK) >>> CONTROL_WSPACE_OFST).toNat = 64 - u.wfifo.bytes.length := by
  rw [controlWord, CONTROL_WSPACE_MSK, CONTROL_WSPACE_OFST, toNat_upper_half, BitVec.toNat_ofNat, Fifo.used]
  omega

end Uart

end NuttyNios
