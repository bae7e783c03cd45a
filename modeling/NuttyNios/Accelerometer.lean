import NuttyNios.SerialBus
/-!
# The accelerometer's controller (nios2system/synthesis/submodules/nios2system_accelerometer_spi.v)

| here | there |
| --- | --- |
| `rom`                  | `altera_up_accelerometer_spi_auto_init` |
| `AutoInit`             | `altera_up_accelerometer_spi_auto_init_ctrl`, without the error, which is never set |
| `Accelerometer.clock`  | a clock edge of `nios2system_accelerometer_spi`, with what the bus master and the chip do |

Out of reset it sends the words of `rom` to the chip (`configured`); after that a read of the data register
reads the register of the chip that `address_reg` names (`iord_data`).
-/

namespace NuttyNios

/-- `rom_data`: a register of the chip, and what is written to it. -/
def rom (address : BitVec 4) : BitVec 16 :=
  [0x2404#16, 0x2502#16, 0x2602#16, 0x27FF#16, 0x2809#16, 0x2946#16, 0x2C0A#16, 0x2E18#16, 0x2F10#16, 0x314B#16,
    0x2D08#16].getD address.toNat 0#16

structure AutoInit where
  dataOut : BitVec 16
  transferData : Bool
  romAddress : BitVec 4
  complete : Bool

namespace AutoInit

def reset : AutoInit := ⟨0#16, false, 0#4, false⟩

def toggleNextTransfer (a : AutoInit) (transferComplete : Bool) : Bool := a.transferData && transferComplete

def clock (a : AutoInit) (transferComplete : Bool) : AutoInit where
  dataOut := rom a.romAddress
  transferData := !(a.complete || transferComplete)
  romAddress := if a.toggleNextTransfer transferComplete then a.romAddress + 1#4 else a.romAddress
  complete := if a.toggleNextTransfer transferComplete && a.romAddress = 10#4 then true else a.complete

end AutoInit

/-- `s_serial_transfer` -/
inductive SerialTransfer
  | idle
  | preWrite
  | writeTransfer
  | postWrite
  | preRead
  | readTransfer
  | postRead
deriving DecidableEq

/-- What the bus master does; the addresses are those of the address register and of the data register. -/
structure Avalon where
  address : Bool
  byteenable : Bool
  read : Bool
  write : Bool
  writedata : BitVec 8

structure Accelerometer where
  bus : SerialBus
  autoInit : AutoInit
  serialTransfer : SerialTransfer
  readdata : BitVec 8
  addressReg : BitVec 6
  dataReg : BitVec 8
  startExternalTransfer : Bool
  externalReadTransfer : Bool
  addressForTransfer : BitVec 8

namespace Accelerometer

def reset : Accelerometer where
  bus := SerialBus.reset
  autoInit := AutoInit.reset
  serialTransfer := .idle
  readdata := 0#8
  addressReg := 0#6
  dataReg := 0#8
  startExternalTransfer := false
  externalReadTransfer := false
  addressForTransfer := 0#8

def READ_MASK : BitVec 16 := 0x00FF#16
def WRITE_MASK : BitVec 16 := 0x0000#16

def waitrequest (a : Accelerometer) (i : Avalon) : Bool :=
  i.address && i.write && a.serialTransfer ≠ .preWrite || i.address && i.read && a.serialTransfer ≠ .postRead

/-- What goes to the serial bus controller. -/
def busIn (a : Accelerometer) (chip : Bool) : BusIn where
  startTransfer := if a.autoInit.complete then a.startExternalTransfer else a.autoInit.transferData
  dataIn := if !a.autoInit.complete then a.autoInit.dataOut
    else BitVec.ofBool a.externalReadTransfer ++ 0#1 ++ a.addressForTransfer.setWidth 6 ++ a.dataReg
  transferMask := if !a.autoInit.complete || !a.externalReadTransfer then WRITE_MASK else READ_MASK
  chip

def next (a : Accelerometer) (i : Avalon) : SerialTransfer :=
  match a.serialTransfer with
  | .idle =>
    if a.bus.transferComplete || !a.autoInit.complete then .idle
    else if i.write && i.address then .preWrite
    else if i.read && i.address then .preRead
    else .idle
  | .preWrite => .writeTransfer
  | .writeTransfer => if a.bus.transferComplete then .postWrite else .writeTransfer
  | .postWrite => .idle
  | .preRead => .readTransfer
  | .readTransfer => if a.bus.transferComplete then .postRead else .readTransfer
  | .postRead => .idle

def clock (a : Accelerometer) (i : Avalon) (chip : Bool) : Accelerometer where
  bus := a.bus.clock (a.busIn chip)
  autoInit := a.autoInit.clock a.bus.transferComplete
  serialTransfer := a.next i
  readdata :=
    if i.read then if i.address then a.bus.shiftregData.setWidth 8 else a.addressReg.setWidth 8 else a.readdata
  addressReg :=
    if i.write && !a.waitrequest i && (!i.address && i.byteenable) then i.writedata.setWidth 6 else a.addressReg
  dataReg := if i.write && !a.waitrequest i && (i.address && i.byteenable) then i.writedata else a.dataReg
  startExternalTransfer :=
    if a.bus.transferComplete then false
    else if a.serialTransfer = .preWrite ∨ a.serialTransfer = .preRead then true else a.startExternalTransfer
  externalReadTransfer :=
    if a.bus.transferComplete then false
    else if a.serialTransfer = .preWrite then false
    else if a.serialTransfer = .preRead then true else a.externalReadTransfer
  addressForTransfer :=
    if a.bus.transferComplete then 0#8
    else if a.serialTransfer = .preWrite ∨ a.serialTransfer = .preRead then a.addressReg.setWidth 8
    else a.addressForTransfer

/-- After some clocks. -/
def after (a : Accelerometer) (f : Nat → Avalon) (chip : Nat → Bool) : Nat → Accelerometer
  | 0 => a
  | t + 1 => (a.after f chip t).clock (f t) (chip t)

/-- What the chip has taken. -/
def edges (a : Accelerometer) (f : Nat → Avalon) (chip : Nat → Bool) : Nat → List (Option Bool)
  | 0 => []
  | t + 1 => a.edges f chip t ++ ((a.after f chip t).bus.edge ((a.after f chip t).busIn (chip t))).toList

variable {a : Accelerometer} {f : Nat → Avalon} {chip : Nat → Bool}

theorem after_add (s t : Nat) : a.after f chip (s + t) =
    (a.after f chip s).after (fun u => f (s + u)) (fun u => chip (s + u)) t := by
  induction t with
  | zero => rfl
  | succ t ih => rw [← Nat.add_assoc, after, after, ih]

theorem edges_add (s t : Nat) : a.edges f chip (s + t) = a.edges f chip s ++
    (a.after f chip s).edges (fun u => f (s + u)) (fun u => chip (s + u)) t := by
  induction t with
  | zero => exact (List.append_nil _).symm
  | succ t ih => rw [← Nat.add_assoc, edges, edges, ih, after_add, List.append_assoc]

/-- Where the serial clock is up the chip takes nothing. -/
theorem edges_of_high (f : Nat → Avalon) (chip : Nat → Bool) {t : Nat}
    (htransfer : (a.after f chip t).bus.protocol ≠ .transfer)
    (hstart : (a.after f chip t).bus.protocol ≠ .startBit) : a.edges f chip (t + 1) = a.edges f chip t := by
  rw [edges, SerialBus.edge_of_high _ htransfer hstart]
  exact List.append_nil _

/-! ## The serial bus under a request that is held -/

/-- While the request is held the serial bus controller does what it does alone. -/
theorem bus_held {d m : BitVec 16} {P : Accelerometer → Prop} (hin : ∀ a x, P a → a.busIn x = ⟨true, d, m, x⟩)
    (hstep : ∀ a t, P a → a.bus.transferComplete = false → P (a.clock (f t) (chip t))) (h : P a) {K : Nat}
    (hbefore : ∀ u < K, (a.bus.after (SerialBus.held d m chip) u).transferComplete = false) :
    P (a.after f chip K) ∧ (a.after f chip K).bus = a.bus.after (SerialBus.held d m chip) K ∧
      a.edges f chip K = a.bus.edges (SerialBus.held d m chip) K := by
  induction K with
  | zero => exact ⟨h, rfl, rfl⟩
  | succ K ih =>
    obtain ⟨hP, hbus, hedges⟩ := ih fun u hu => hbefore u (hu.trans (Nat.lt_succ_self K))
    have hready := hbefore K (Nat.lt_succ_self K)
    have hbusIn := hin _ (chip K) hP
    refine ⟨hstep _ K hP (hbus ▸ hready), ?_, ?_⟩
    · show (a.after f chip K).bus.clock ((a.after f chip K).busIn (chip K)) = _
      rw [hbus, hbusIn]
      rfl
    · rw [edges, hedges, hbus, hbusIn]
      rfl

/-- The end of an exchange: the serial bus controller is idle again, and tells so for one more clock. -/
theorem settles (f : Nat → Avalon) (chip : Nat → Bool) {P : Accelerometer → Prop}
    (hstep : ∀ a t, P a → a.bus.transferComplete = true → P (a.clock (f t) (chip t))) (h : P a) {n : BitVec 4}
    (hslow : a.bus.slow = .phase n) (hstop : a.bus.protocol = .stopBit) (htc : a.bus.transferComplete = true) :
    ∃ k ≤ 16, (∀ u ≤ k, P (a.after f chip u)) ∧ (a.after f chip k).bus.slow = .phase 13#4 ∧
      (a.after f chip k).bus.protocol = .idle ∧
      (a.after f chip k).bus.transferComplete = true ∧ a.edges f chip k = [] := by
  have hwait : ∀ n : BitVec 4, ∀ l < (12#4 - n).toNat, n + BitVec.ofNat 4 l ≠ 12#4 := by decide
  have hend : n + BitVec.ofNat 4 (12#4 - n).toNat = 12#4 := by
    rw [BitVec.ofNat_toNat, BitVec.setWidth_eq, add_sub_cancel]
  have hstopped : ∀ l ≤ (12#4 - n).toNat, P (a.after f chip l) ∧
      (a.after f chip l).bus.slow = .phase (n + BitVec.ofNat 4 l) ∧ (a.after f chip l).bus.protocol = .stopBit ∧
      (a.after f chip l).bus.transferComplete = true ∧ a.edges f chip l = [] := by
    intro l hl
    induction l with
    | zero => exact ⟨h, hslow.trans (by simp), hstop, htc, rfl⟩
    | succ l ih =>
      obtain ⟨hP, hslow, hstop, htc, hedges⟩ := ih (Nat.le_of_succ_le hl)
      obtain ⟨hslow', hstop', htc'⟩ := SerialBus.clock_stop ((a.after f chip l).busIn (chip l)) hslow hstop
      rw [if_neg (hwait n l hl)] at hstop'
      rw [BitVec.add_assoc, ← BitVec.ofNat_add] at hslow'
      exact ⟨hstep _ l hP htc, hslow', hstop', htc',
        (edges_of_high f chip (by rw [hstop]; decide) (by rw [hstop]; decide)).trans hedges⟩
  have hn := (12#4 - n).isLt
  obtain ⟨hP, hslow, hstop, htc, hedges⟩ := hstopped _ (le_refl _)
  obtain ⟨hslow', hstop', htc'⟩ := SerialBus.clock_stop ((a.after f chip _).busIn (chip _)) hslow hstop
  rw [hend, if_pos rfl] at hstop'
  rw [hend] at hslow'
  refine ⟨(12#4 - n).toNat + 1, by omega, fun u hu => ?_, hslow', hstop', htc',
    (edges_of_high f chip (by rw [hstop]; decide) (by rw [hstop]; decide)).trans hedges⟩
  rcases Nat.le_succ_iff.1 hu with hu | rfl
  · exact (hstopped u hu).1
  · exact hstep _ _ hP htc

/-! ## The configuration -/

/-- The bits of a word as they are sent, and the one after them, which is not determined. -/
def frame (d : BitVec 16) : List (Option Bool) := ((List.range 16).map fun j => d.getMsbD j).map some ++ [none]

/-- Nothing goes on: what the bus master asks for next is done. -/
structure Quiet (a : Accelerometer) : Prop where
  complete : a.autoInit.complete = true
  idle : a.serialTransfer = .idle
  start : a.startExternalTransfer = false
  slow : ∃ n, a.bus.slow = .phase n
  bus : a.bus.protocol = .idle ∨ a.bus.protocol = .stopBit ∧ a.bus.transferComplete = true

theorem quiet_ready : Quiet { reset with
    autoInit := ⟨0#16, false, 11#4, true⟩, bus := { SerialBus.reset with slow := .phase 1#4 } } :=
  ⟨rfl, rfl, rfl, ⟨1#4, rfl⟩, .inl rfl⟩

/-- The configuration goes on, and the bus master waits. -/
structure Configures (a : Accelerometer) (dataOut : BitVec 16) (transferData : Bool)
    (romAddress : BitVec 4) : Prop where
  autoInit : a.autoInit = ⟨dataOut, transferData, romAddress, false⟩
  idle : a.serialTransfer = .idle
  start : a.startExternalTransfer = false

/-- Whatever the bus master does. -/
theorem Configures.clock {w : BitVec 16} {g : Bool} {r : BitVec 4} (h : Configures a w g r) (i : Avalon) (x : Bool) :
    (a.clock i x).autoInit = (⟨w, g, r, false⟩ : AutoInit).clock a.bus.transferComplete ∧
      (a.clock i x).serialTransfer = .idle ∧ (a.clock i x).startExternalTransfer = false := by
  refine ⟨?_, ?_, ?_⟩
  · show a.autoInit.clock a.bus.transferComplete = _
    rw [h.autoInit]
  · simp [Accelerometer.clock, next, h.idle, h.autoInit]
  · simp [Accelerometer.clock, h.idle, h.start]

theorem Configures.busIn {w : BitVec 16} {g : Bool} {r : BitVec 4} (h : Configures a w g r) (x : Bool) :
    a.busIn x = ⟨g, w, WRITE_MASK, x⟩ := by
  simp [Accelerometer.busIn, h.autoInit]

/-- What the chip takes when nothing is left to it. -/
theorem bits_write (d : BitVec 16) (t k : Nat) :
    SerialBus.bits d WRITE_MASK chip t k 16 = (List.range 16).map fun j => d.getMsbD j := by
  have hmask : ∀ j, WRITE_MASK.getMsbD j = false := fun j => BitVec.getMsbD_zero
  simp only [SerialBus.bits, SerialBus.onWire, hmask, Bool.false_eq_true, if_false]

/-- A word of the configuration is sent. -/
theorem word_sent (f : Nat → Avalon) (chip : Nat → Bool) {n r : BitVec 4} (h : Configures a (rom r) true r)
    (hslow : a.bus.slow = .phase n)
    (hidle : a.bus.protocol = .idle) (hready : a.bus.transferComplete = false) : ∃ k ≤ 281,
    Configures (a.after f chip k) (rom r) true r ∧ (a.after f chip k).bus.slow = .phase 6#4 ∧
      (a.after f chip k).bus.protocol = .stopBit ∧ (a.after f chip k).bus.transferComplete = true ∧
      a.edges f chip k = frame (rom r) := by
  obtain ⟨k, hk, z, hlast, hedges, hbefore⟩ :=
    SerialBus.exchange (rom r) WRITE_MASK chip hslow hidle hready
  obtain ⟨hP, hbus, hedges'⟩ := bus_held (f := f) (P := fun a => Configures a (rom r) true r) (fun a x h => h.busIn x)
    (fun a t h htc => by
      obtain ⟨h₁, h₂, h₃⟩ := h.clock (f t) (chip t)
      rw [htc] at h₁
      exact ⟨h₁, h₂, h₃⟩) h hbefore
  rw [hlast] at hbus
  rw [hedges, bits_write] at hedges'
  exact ⟨k + 257, by omega, hP, by rw [hbus], by rw [hbus], by rw [hbus], hedges'⟩

/-- The next word is fetched while the serial bus comes to rest. -/
theorem word_fetched (f : Nat → Avalon) (chip : Nat → Bool) {w : BitVec 16} {r n : BitVec 4}
    (h : Configures a w false r) (hslow : a.bus.slow = .phase n)
    (hstop : a.bus.protocol = .stopBit) (htc : a.bus.transferComplete = true) : ∃ k ≤ 18,
    Configures (a.after f chip k) (rom r) true r ∧ (a.after f chip k).bus.slow = .phase 15#4 ∧
      (a.after f chip k).bus.protocol = .idle ∧ (a.after f chip k).bus.transferComplete = false ∧
      a.edges f chip k = [] := by
  have hstep : ∀ {a w} (i x), Configures a w false r → a.bus.transferComplete = true →
      Configures (a.clock i x) (rom r) false r := by
    intro a w i x h htc
    obtain ⟨h₁, h₂, h₃⟩ := h.clock i x
    rw [htc] at h₁
    exact ⟨h₁, h₂, h₃⟩
  obtain ⟨k, hk, hall, hslow, hidle, htc, hedges⟩ := settles f chip
    (P := fun a => ∃ w, Configures a w false r) (fun a t ⟨w, h⟩ htc => ⟨_, hstep (f t) (chip t) h htc⟩) ⟨w, h⟩
    hslow hstop htc
  obtain ⟨w', hP⟩ := hall k (le_refl k)
  -- the end of the last transfer is taken back
  have hP' : Configures (a.after f chip (k + 1)) (rom r) false r := hstep _ _ hP htc
  obtain ⟨hslow', hidle', hready⟩ := SerialBus.clock_unasked ((a.after f chip k).busIn (chip k))
    (by rw [hP.busIn]) hslow hidle
  have hedges' := (edges_of_high f chip (by rw [hidle]; decide) (by rw [hidle]; decide)).trans hedges
  -- the next one is asked for
  obtain ⟨h₁, h₂, h₃⟩ := hP'.clock (f (k + 1)) (chip (k + 1))
  have hready' : (a.after f chip (k + 1)).bus.transferComplete = false := hready
  rw [hready'] at h₁
  obtain ⟨hslow'', hidle'', hready''⟩ := SerialBus.clock_unasked (b := (a.after f chip (k + 1)).bus)
    ((a.after f chip (k + 1)).busIn (chip (k + 1))) (by rw [hP'.busIn]) hslow' hidle'
  have hhigh : (a.after f chip (k + 1)).bus.protocol = .idle := hidle'
  exact ⟨k + 1 + 1, by omega, ⟨h₁, h₂, h₃⟩, hslow'', hidle'', hready'',
    (edges_of_high f chip (by rw [hhigh]; decide) (by rw [hhigh]; decide)).trans hedges'⟩

/-- From one word to the next, or to the end. -/
theorem word_next (f : Nat → Avalon) (chip : Nat → Bool) {n r : BitVec 4} (h : Configures a (rom r) true r)
    (hslow : a.bus.slow = .phase n)
    (hidle : a.bus.protocol = .idle) (hready : a.bus.transferComplete = false) :
    ∃ k ≤ 300, a.edges f chip k = frame (rom r) ∧
      if r = 10#4 then Quiet (a.after f chip k) else Configures (a.after f chip k) (rom (r + 1#4)) true (r + 1#4) ∧
        (a.after f chip k).bus.slow = .phase 15#4 ∧ (a.after f chip k).bus.protocol = .idle ∧
        (a.after f chip k).bus.transferComplete = false := by
  obtain ⟨k, hk, hP, hslow, hstop, htc, hedges⟩ := word_sent f chip h hslow hidle hready
  obtain ⟨h₁, h₂, h₃⟩ := hP.clock (f k) (chip k)
  rw [htc] at h₁
  obtain ⟨hslow', hstop', htc'⟩ := SerialBus.clock_stop ((a.after f chip k).busIn (chip k)) hslow hstop
  have hedges' := (edges_of_high f chip (by rw [hstop]; decide) (by rw [hstop]; decide)).trans hedges
  by_cases hr : r = 10#4
  · refine ⟨k + 1, by omega, hedges', ?_⟩
    rw [if_pos hr]
    refine ⟨?_, h₂, h₃, ⟨_, hslow'⟩, .inr ⟨hstop', htc'⟩⟩
    show ((a.after f chip k).clock (f k) (chip k)).autoInit.complete = true
    rw [h₁, hr]
    rfl
  · have hnext : Configures (a.after f chip (k + 1)) (rom r) false (r + 1#4) := by
      refine ⟨h₁.trans ?_, h₂, h₃⟩
      simp [AutoInit.clock, AutoInit.toggleNextTransfer, hr]
    have hstop'' : (a.after f chip (k + 1)).bus.protocol = .stopBit := by
      rw [after]
      refine hstop'.trans (if_neg (by decide))
    obtain ⟨l, hl, hC, hslow, hidle, hready, hnone⟩ := word_fetched (fun u => f (k + 1 + u))
      (fun u => chip (k + 1 + u)) hnext hslow' hstop'' htc'
    refine ⟨k + 1 + l, by omega, ?_, ?_⟩
    · rw [edges_add, hedges', hnone, List.append_nil]
    · rw [if_neg hr, after_add]
      exact ⟨hC, hslow, hidle, hready⟩

/-- The words from `r` on. -/
theorem words_sent : ∀ j ≤ 10, ∀ {a : Accelerometer} (f : Nat → Avalon) (chip : Nat → Bool) {n r : BitVec 4},
    r.toNat + j = 10 → Configures a (rom r) true r → a.bus.slow = .phase n → a.bus.protocol = .idle →
    a.bus.transferComplete = false → ∃ k ≤ 300 * (j + 1), Quiet (a.after f chip k) ∧
      a.edges f chip k = (List.range' r.toNat (j + 1)).flatMap fun i => frame (rom (BitVec.ofNat 4 i)) := by
  intro j hj
  induction j with
  | zero =>
    intro a f chip n r hr h hslow hidle hready
    obtain ⟨k, hk, hedges, hnext⟩ := word_next f chip h hslow hidle hready
    have hr' : r = 10#4 := BitVec.eq_of_toNat_eq hr
    rw [if_pos hr'] at hnext
    exact ⟨k, hk, hnext, by simpa [hr'] using hedges⟩
  | succ j ih =>
    intro a f chip n r hr h hslow hidle hready
    obtain ⟨k, hk, hedges, hnext⟩ := word_next f chip h hslow hidle hready
    rw [if_neg (by rintro rfl; simp at hr)] at hnext
    obtain ⟨hC, hslow, hidle, hready⟩ := hnext
    have hr' : (r + 1#4).toNat = r.toNat + 1 := by
      rw [BitVec.toNat_add]
      exact Nat.mod_eq_of_lt (by show r.toNat + 1 < 16; omega)
    obtain ⟨l, hl, hquiet, hrest⟩ := ih (by omega) (fun u => f (k + u)) (fun u => chip (k + u))
      (by omega) hC hslow hidle hready
    refine ⟨k + l, by omega, after_add k l ▸ hquiet, ?_⟩
    rw [edges_add, hedges, hrest, hr']
    conv_rhs => rw [List.range'_succ, List.flatMap_cons, BitVec.ofNat_toNat, BitVec.setWidth_eq]

/-- **The chip is configured**: whatever the bus master does, within 3301 clocks of reset the chip has taken the eleven
words of `rom`, in order, each with one more bit that is not determined, and nothing else, and the device is ready. -/
theorem configured (f : Nat → Avalon) (chip : Nat → Bool) : ∃ k ≤ 3301, Quiet (reset.after f chip k) ∧
    reset.edges f chip k = (List.range 11).flatMap fun i => frame (rom (BitVec.ofNat 4 i)) := by
  have hC : Configures (reset.after f chip 1) (rom 0#4) true 0#4 := ⟨rfl, rfl, rfl⟩
  obtain ⟨k, hk, hquiet, hedges⟩ := words_sent 10 (le_refl 10) (fun u => f (1 + u)) (fun u => chip (1 + u))
    (n := 1#4) (r := 0#4) rfl hC SlowClock.clock_reset rfl rfl
  refine ⟨1 + k, by omega, after_add 1 k ▸ hquiet, ?_⟩
  rw [edges_add, hedges, List.range_eq_range']
  rfl

/-! ## A read -/

/-- A read of the data register. -/
def iord : Avalon := ⟨true, true, true, false, 0#8⟩

/-- The bus master's read waits for the serial bus. -/
structure Wants (a : Accelerometer) (address : BitVec 6) (data : BitVec 8) : Prop where
  complete : a.autoInit.complete = true
  idle : a.serialTransfer = .idle
  start : a.startExternalTransfer = false
  address : a.addressReg = address
  data : a.dataReg = data

/-- The register of the chip is read. -/
structure Reads (a : Accelerometer) (address : BitVec 6) (data : BitVec 8) : Prop where
  complete : a.autoInit.complete = true
  transfer : a.serialTransfer = .readTransfer
  start : a.startExternalTransfer = true
  external : a.externalReadTransfer = true
  forTransfer : a.addressForTransfer = address.setWidth 8
  address : a.addressReg = address
  data : a.dataReg = data

variable {r : BitVec 6} {w : BitVec 8} {x : Bool}

theorem complete_clock (h : a.autoInit.complete = true) (i : Avalon) (x : Bool) :
    (a.clock i x).autoInit.complete = true := by
  show (if _ then true else a.autoInit.complete) = true
  rw [h, ite_self]

/-- As long as the last transfer is not taken back. -/
theorem Wants.clock (h : Wants a r w) (htc : a.bus.transferComplete = true) : Wants (a.clock iord x) r w where
  complete := complete_clock h.complete iord x
  idle := by simp [Accelerometer.clock, next, h.idle, htc]
  start := by simp [Accelerometer.clock, htc]
  address := h.address
  data := h.data

theorem waitrequest_iord (a : Accelerometer) : a.waitrequest iord = decide (a.serialTransfer ≠ .postRead) := rfl

theorem Wants.waitrequest (h : Wants a r w) : a.waitrequest iord = true := by
  rw [waitrequest_iord, h.idle]
  rfl

theorem Reads.clock (h : Reads a r w) (htc : a.bus.transferComplete = false) : Reads (a.clock iord x) r w where
  complete := complete_clock h.complete iord x
  transfer := by simp [Accelerometer.clock, next, h.transfer, htc]
  start := by simp [Accelerometer.clock, h.transfer, h.start, htc]
  external := by simp [Accelerometer.clock, h.transfer, h.external, htc]
  forTransfer := by simp [Accelerometer.clock, h.transfer, h.forTransfer, htc]
  address := h.address
  data := h.data

theorem Reads.waitrequest (h : Reads a r w) : a.waitrequest iord = true := by
  rw [waitrequest_iord, h.transfer]
  rfl

/-- The word of a read. -/
def command (address : BitVec 6) (data : BitVec 8) : BitVec 16 := 1#1 ++ 0#1 ++ address ++ data

theorem Reads.busIn (h : Reads a r w) (x : Bool) : a.busIn x = ⟨true, command r w, READ_MASK, x⟩ := by
  simp [Accelerometer.busIn, h.complete, h.start, h.external, h.forTransfer, h.data, command]

theorem Wants.busIn (h : Wants a r w) (x : Bool) : (a.busIn x).startTransfer = false := by
  simp [Accelerometer.busIn, h.complete, h.start]

/-- The serial bus comes to rest. -/
theorem wants_settles (chip : Nat → Bool) (h : Wants a r w) (hslow : ∃ n, a.bus.slow = .phase n)
    (hbus : a.bus.protocol = .idle ∨ a.bus.protocol = .stopBit ∧ a.bus.transferComplete = true) :
    ∃ k ≤ 17, (∀ u ≤ k, Wants (a.after (fun _ => iord) chip u) r w) ∧
      (∃ n, (a.after (fun _ => iord) chip k).bus.slow = .phase n) ∧
      (a.after (fun _ => iord) chip k).bus.protocol = .idle ∧
      (a.after (fun _ => iord) chip k).bus.transferComplete = false ∧ a.edges (fun _ => iord) chip k = [] := by
  by_cases hready : a.bus.protocol = .idle ∧ a.bus.transferComplete = false
  · exact ⟨0, Nat.zero_le _, fun u hu => Nat.le_zero.1 hu ▸ h, hslow, hready.1, hready.2, rfl⟩
  -- idle, and still telling that the last transfer is complete
  have htold : ∃ k ≤ 16, (∀ u ≤ k, Wants (a.after (fun _ => iord) chip u) r w) ∧
      (∃ n, (a.after (fun _ => iord) chip k).bus.slow = .phase n) ∧
      (a.after (fun _ => iord) chip k).bus.protocol = .idle ∧
      (a.after (fun _ => iord) chip k).bus.transferComplete = true ∧ a.edges (fun _ => iord) chip k = [] := by
    rcases hbus with hidle | ⟨hstop, htc⟩
    · refine ⟨0, Nat.zero_le _, fun u hu => Nat.le_zero.1 hu ▸ h, hslow, hidle, ?_, rfl⟩
      exact (Bool.not_eq_false _).mp fun htc => hready ⟨hidle, htc⟩
    · obtain ⟨n, hslow⟩ := hslow
      obtain ⟨k, hk, hall, hslow', hidle, htc', hedges⟩ := settles (fun _ => iord) chip
        (P := fun a => Wants a r w) (fun a t h htc => h.clock htc) h hslow hstop htc
      exact ⟨k, hk, hall, ⟨_, hslow'⟩, hidle, htc', hedges⟩
  obtain ⟨k, hk, hall, ⟨n, hslow⟩, hidle, htc, hedges⟩ := htold
  have hk' := hall k (le_refl k)
  obtain ⟨hslow', hidle', hready'⟩ := SerialBus.clock_unasked _ (hk'.busIn (chip k)) hslow hidle
  refine ⟨k + 1, by omega, fun u hu => ?_, ⟨_, hslow'⟩, hidle', hready',
    (edges_of_high _ chip (by rw [hidle]; decide) (by rw [hidle]; decide)).trans hedges⟩
  rcases Nat.le_succ_iff.1 hu with hu | rfl
  · exact hall u hu
  · exact hk'.clock htc

/-- The read is taken up. -/
theorem read_begins (chip : Nat → Bool) {n : BitVec 4} (h : Wants a r w) (hslow : a.bus.slow = .phase n)
    (hidle : a.bus.protocol = .idle) (hready : a.bus.transferComplete = false) :
    (a.after (fun _ => iord) chip 1).waitrequest iord = true ∧ Reads (a.after (fun _ => iord) chip 2) r w ∧
      (a.after (fun _ => iord) chip 2).bus.slow = .phase (n + 1#4 + 1#4) ∧
      (a.after (fun _ => iord) chip 2).bus.protocol = .idle ∧
      (a.after (fun _ => iord) chip 2).bus.transferComplete = false ∧ a.edges (fun _ => iord) chip 2 = [] := by
  have hpre : (a.clock iord (chip 0)).serialTransfer = .preRead := by
    simp [Accelerometer.clock, next, h.idle, h.complete, hready, iord]
  have hcomplete := complete_clock h.complete iord (chip 0)
  have hstart : (a.clock iord (chip 0)).startExternalTransfer = false := by
    simp [Accelerometer.clock, h.idle, h.start]
  obtain ⟨hslow₁, hidle₁, hready₁⟩ := SerialBus.clock_unasked _ (h.busIn (chip 0)) hslow hidle
  have hunasked : ((a.clock iord (chip 0)).busIn (chip 1)).startTransfer = false := by
    simp [Accelerometer.busIn, hcomplete, hstart]
  have hbus₁ : (a.clock iord (chip 0)).bus.transferComplete = false := hready₁
  obtain ⟨hslow₂, hidle₂, hready₂⟩ := SerialBus.clock_unasked
    (b := (a.clock iord (chip 0)).bus) _ hunasked hslow₁ hidle₁
  have hhigh : (a.after (fun _ => iord) chip 1).bus.protocol = .idle := hidle₁
  refine ⟨?_, ⟨complete_clock hcomplete iord (chip 1), ?_, ?_, ?_, ?_, h.address, h.data⟩, hslow₂, hidle₂, hready₂, ?_⟩
  · show (a.clock iord (chip 0)).waitrequest iord = true
    rw [waitrequest_iord, hpre]
    rfl
  · show ((a.clock iord (chip 0)).clock iord (chip 1)).serialTransfer = .readTransfer
    rw [Accelerometer.clock, next, hpre]
  · show ((a.clock iord (chip 0)).clock iord (chip 1)).startExternalTransfer = true
    rw [Accelerometer.clock]
    simp only [hpre, hbus₁, Bool.false_eq_true, if_false, or_true, if_true]
  · show ((a.clock iord (chip 0)).clock iord (chip 1)).externalReadTransfer = true
    rw [Accelerometer.clock]
    simp [hpre, hbus₁]
  · show ((a.clock iord (chip 0)).clock iord (chip 1)).addressForTransfer = r.setWidth 8
    rw [Accelerometer.clock]
    simp only [hpre, hbus₁, Bool.false_eq_true, if_false, or_true, if_true]
    exact congrArg (·.setWidth 8) h.address
  · refine (edges_of_high _ chip (by rw [hhigh]; decide) (by rw [hhigh]; decide)).trans ?_
    exact edges_of_high _ chip (t := 0) (by rw [after, hidle]; decide) (by rw [after, hidle]; decide)

/-- The chip's bits of an exchange whose first bit begins at `t`, `k` clocks later. -/
def answer (chip : Nat → Bool) (t k : Nat) : List Bool := (List.range 8).map fun j => chip (t + 16 * (8 + j) + k)

/-- What the chip takes in a read: that it is one, the register, and its own answer. -/
theorem bits_read (r : BitVec 6) (w : BitVec 8) (chip : Nat → Bool) (t k : Nat) :
    SerialBus.bits (command r w) READ_MASK chip t k 16 =
      [true, false] ++ (List.range 6).map (fun j => r.getMsbD j) ++ answer chip t k := by
  have hmask : ∀ j < 16, READ_MASK.getMsbD j = decide (8 ≤ j) := by decide
  have hlow : ∀ j < 8, READ_MASK.getMsbD j = false := fun j hj => (hmask j (by omega)).trans (by simp; omega)
  have hhigh : ∀ j < 8, READ_MASK.getMsbD (8 + j) = true := fun j hj => (hmask _ (by omega)).trans (by simp)
  rw [SerialBus.bits, show 16 = 8 + 8 from rfl, List.range_add, List.map_append, List.map_map]
  refine congrArg₂ (· ++ ·) ?_ (List.map_congr_left fun j hj => ?_)
  · have hword : ∀ j, (command r w).getMsbD j = (1#1 ++ 0#1 ++ r ++ w).getMsbD j := fun j => rfl
    rw [List.map_congr_left (g := (command r w).getMsbD) fun j hj => by
      rw [SerialBus.onWire, hlow j (List.mem_range.1 hj)]
      rfl]
    simp only [List.range_succ, List.range_zero, List.map_append, List.map_cons, List.map_nil, hword,
      BitVec.getMsbD_append]
    rfl
  · rw [Function.comp_apply, SerialBus.onWire, hhigh j (List.mem_range.1 hj)]
    rfl

theorem read_exchanges (chip : Nat → Bool) {n : BitVec 4} (h : Reads a r w) (hslow : a.bus.slow = .phase n)
    (hidle : a.bus.protocol = .idle) (hready : a.bus.transferComplete = false) :
    ∃ k ≤ 281, ∃ t, (∀ u ≤ k, Reads (a.after (fun _ => iord) chip u) r w) ∧
      (a.after (fun _ => iord) chip k).bus.slow = .phase 6#4 ∧
      (a.after (fun _ => iord) chip k).bus.protocol = .stopBit ∧
      (a.after (fun _ => iord) chip k).bus.transferComplete = true ∧
      (∀ j < 8, (a.after (fun _ => iord) chip k).bus.shiftregData.getMsbD (8 + j) = chip (t + 16 * (8 + j) + 7)) ∧
      a.edges (fun _ => iord) chip k =
        ([true, false] ++ (List.range 6).map (fun j => r.getMsbD j) ++ answer chip t 3).map some ++ [none] := by
  obtain ⟨k, hk, z, hlast, hedges, hbefore⟩ := SerialBus.exchange (command r w) READ_MASK chip hslow hidle hready
  have hheld := fun u (hu : u ≤ k + 257) => bus_held (f := fun _ => iord) (P := fun a => Reads a r w)
    (fun a x h => h.busIn x) (fun a t h htc => h.clock htc) h fun v hv => hbefore v (hv.trans_le hu)
  obtain ⟨-, hbus, hedges'⟩ := hheld (k + 257) (le_refl _)
  rw [hlast] at hbus
  rw [hedges, bits_read] at hedges'
  refine ⟨k + 257, by omega, k, fun u hu => (hheld u hu).1, by rw [hbus], by rw [hbus], by rw [hbus],
    fun j hj => ?_, hedges'⟩
  have hlen := SerialBus.bits_length (command r w) READ_MASK chip k 7 16
  have hin := SerialBus.getMsbD_shifted_in (p := command r w) hlen.le (j := 8 + j) (by omega)
  simp only [hlen, Nat.sub_self, Nat.zero_add] at hin
  have hmask : ∀ j < 8, READ_MASK.getMsbD (8 + j) = true := by decide
  rw [hbus, hin]
  simp [SerialBus.bits, SerialBus.onWire, hmask j hj]

/-- The answer is handed over, and the device is ready for the next access. -/
theorem read_ends (chip : Nat → Bool) {n : BitVec 4} (h : Reads a r w) (hslow : a.bus.slow = .phase n)
    (hn : n + 1#4 ≠ 12#4)
    (hn' : n ≠ 12#4) (hstop : a.bus.protocol = .stopBit) (htc : a.bus.transferComplete = true) :
    (a.after (fun _ => iord) chip 1).waitrequest iord = false ∧
      (a.after (fun _ => iord) chip 1).readdata = a.bus.shiftregData.setWidth 8 ∧
      Quiet (a.after (fun _ => iord) chip 2) ∧ (a.after (fun _ => iord) chip 2).addressReg = r ∧
      a.edges (fun _ => iord) chip 2 = [] := by
  have hpost : (a.clock iord (chip 0)).serialTransfer = .postRead := by
    simp [Accelerometer.clock, next, h.transfer, htc]
  obtain ⟨hslow₁, hstop₁, htc₁⟩ := SerialBus.clock_stop (a.busIn (chip 0)) hslow hstop
  rw [if_neg hn'] at hstop₁
  have hbus₁ : (a.clock iord (chip 0)).bus.transferComplete = true := htc₁
  have hhigh : (a.after (fun _ => iord) chip 1).bus.protocol = .stopBit := hstop₁
  obtain ⟨hslow₂, hstop₂, htc₂⟩ := SerialBus.clock_stop (b := (a.clock iord (chip 0)).bus)
    ((a.clock iord (chip 0)).busIn (chip 1)) hslow₁ hstop₁
  rw [if_neg hn] at hstop₂
  refine ⟨?_, rfl, ⟨?_, ?_, ?_, ⟨_, hslow₂⟩, .inr ⟨hstop₂, htc₂⟩⟩, h.address, ?_⟩
  · show (a.clock iord (chip 0)).waitrequest iord = false
    rw [waitrequest_iord, hpost]
    rfl
  · exact complete_clock (complete_clock h.complete iord (chip 0)) iord (chip 1)
  · show ((a.clock iord (chip 0)).clock iord (chip 1)).serialTransfer = .idle
    rw [Accelerometer.clock, next, hpost]
  · show ((a.clock iord (chip 0)).clock iord (chip 1)).startExternalTransfer = false
    rw [Accelerometer.clock, hbus₁]
    rfl
  · refine (edges_of_high _ chip (by rw [hhigh]; decide) (by rw [hhigh]; decide)).trans ?_
    exact edges_of_high _ chip (t := 0) (by rw [after, hstop]; decide) (by rw [after, hstop]; decide)

theorem getMsbD_low (v : BitVec 16) (j : Nat) : (v.setWidth 8).getMsbD j = v.getMsbD (8 + j) := by
  rw [BitVec.getMsbD_setWidth]
  simp [Nat.add_comm]

/-- A read of the data register: within 302 clocks the bus master has the eight bits with which the chip answered;
the chip has taken that it is read, and the register that `address_reg` names; and the device is ready again. -/
theorem iord_data (h : Quiet a) (chip : Nat → Bool) : ∃ k ≤ 301, ∃ t,
    (∀ u < k, (a.after (fun _ => iord) chip u).waitrequest iord = true) ∧
    (a.after (fun _ => iord) chip k).waitrequest iord = false ∧
    (List.range 8).map (fun j => (a.after (fun _ => iord) chip k).readdata.getMsbD j) = answer chip t 7 ∧
    a.edges (fun _ => iord) chip (k + 1) =
      ([true, false] ++ (List.range 6).map (fun j => a.addressReg.getMsbD j) ++ answer chip t 3).map some ++ [none] ∧
    Quiet (a.after (fun _ => iord) chip (k + 1)) ∧
    (a.after (fun _ => iord) chip (k + 1)).addressReg = a.addressReg := by
  have hwants : Wants a a.addressReg a.dataReg := ⟨h.complete, h.idle, h.start, rfl, rfl⟩
  obtain ⟨k₁, hk₁, hall₁, ⟨n, hslow₁⟩, hidle₁, hready₁, hedges₁⟩ := wants_settles chip hwants h.slow h.bus
  obtain ⟨hwait₂, hreads, hslow₂, hidle₂, hready₂, hedges₂⟩ :=
    read_begins (fun u => chip (k₁ + u)) (hall₁ k₁ (le_refl k₁)) hslow₁ hidle₁ hready₁
  obtain ⟨k₃, hk₃, t, hall₃, hslow₃, hstop₃, htc₃, hbits₃, hedges₃⟩ :=
    read_exchanges (fun u => chip (k₁ + (2 + u))) hreads hslow₂ hidle₂ hready₂
  obtain ⟨hack, hdata, hquiet, haddress, hedges₄⟩ := read_ends (fun u => chip (k₁ + (2 + (k₃ + u))))
    (hall₃ k₃ (le_refl k₃)) hslow₃ (by decide) (by decide) hstop₃ htc₃
  -- the parts of the read, one after the other
  have hsettled : ∀ u, a.after (fun _ => iord) chip (k₁ + u) = _ := after_add k₁
  have hbegun : ∀ u, (a.after (fun _ => iord) chip k₁).after (fun _ => iord) (fun u => chip (k₁ + u)) (2 + u) = _ :=
    after_add 2
  have hexchanged : ∀ u, ((a.after (fun _ => iord) chip k₁).after (fun _ => iord) (fun u => chip (k₁ + u)) 2).after
      (fun _ => iord) (fun u => chip (k₁ + (2 + u))) (k₃ + u) = _ := after_add k₃
  have hend : ∀ u, a.after (fun _ => iord) chip (k₁ + (2 + (k₃ + u))) = _ := fun u =>
    (hsettled (2 + (k₃ + u))).trans ((hbegun (k₃ + u)).trans (hexchanged u))
  have hanswer : ∀ k, answer (fun u => chip (k₁ + (2 + u))) t k = answer chip (k₁ + (2 + t)) k := by
    intro k
    simp only [answer, Nat.add_assoc]
  refine ⟨k₁ + (2 + (k₃ + 1)), by omega, k₁ + (2 + t), ?_, ?_, ?_, ?_, ?_, ?_⟩
  · intro u hu
    rcases Nat.lt_or_ge k₁ u with hlt | hle
    · obtain ⟨v, rfl⟩ := Nat.exists_eq_add_of_lt hlt
      rw [Nat.add_assoc, hsettled]
      cases v with
      | zero => exact hwait₂
      | succ v =>
        rw [show v + 1 + 1 = 2 + v by omega, hbegun]
        exact (hall₃ v (by omega)).waitrequest
    · exact (hall₁ u hle).waitrequest
  · rw [hend]
    exact hack
  · rw [hend, ← hanswer, answer]
    refine List.map_congr_left fun j hj => ?_
    rw [hdata, getMsbD_low]
    exact hbits₃ j (List.mem_range.1 hj)
  · show a.edges (fun _ => iord) chip (k₁ + (2 + (k₃ + 2))) = _
    rw [edges_add, hedges₁, List.nil_append]
    refine (edges_add 2 (k₃ + 2)).trans ?_
    refine (congrArg₂ (· ++ ·) hedges₂ ((edges_add k₃ 2).trans (congrArg₂ (· ++ ·) hedges₃ hedges₄))).trans ?_
    rw [hanswer, List.nil_append, List.append_nil]
  · show Quiet (a.after (fun _ => iord) chip (k₁ + (2 + (k₃ + 2))))
    rw [hend]
    exact hquiet
  · show (a.after (fun _ => iord) chip (k₁ + (2 + (k₃ + 2)))).addressReg = _
    rw [hend]
    exact haddress

end Accelerometer
end NuttyNios
