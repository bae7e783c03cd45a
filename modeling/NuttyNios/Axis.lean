import NuttyNios.Accelerometer
/-!
# The accelerometer's driver (drivers/src/altera_up_avalon_accelerometer_spi.c)

| here | there |
| --- | --- |
| `Access`          | `IOWR_ALT_UP_..._ADDRESS`, `IORD_ALT_UP_..._DATA`; a clock between two accesses |
| `readAxis`, `axis` | `alt_up_accelerometer_spi_read_x_axis`, `.._y_axis`, `.._z_axis`: the accesses, and the value |
| `readAccerometer` | `read_accerometer` (utils.h) |

`performs` says what any sequence of accesses does on the device, `accerometer_read` what a sample is made of: two
reads for each axis, so that its bytes need not be of one measurement.
-/

namespace NuttyNios

/-- What the processor does with the device. -/
inductive Access
  | pause
  | iowr (data : BitVec 8)
  | iord
deriving DecidableEq

namespace Accelerometer

def nothing : Avalon := ⟨false, false, false, false, 0#8⟩

def iowr (data : BitVec 8) : Avalon := ⟨false, true, false, true, data⟩

/-- The accesses one after the other, from a clock on, with what the chip takes and what is read. -/
inductive Performs (chip : Nat → Bool) : Accelerometer → Nat → List Access → Accelerometer → List (Option Bool) →
    List (BitVec 8) → Prop
  | nil (a : Accelerometer) (t : Nat) : Performs chip a t [] a [] []
  | pause {a a' : Accelerometer} {t : Nat} {l : List Access} {e : List (Option Bool)} {ds : List (BitVec 8)}
      (h : Performs chip (a.clock nothing (chip t)) (t + 1) l a' e ds) :
      Performs chip a t (.pause :: l) a' ((a.bus.edge (a.busIn (chip t))).toList ++ e) ds
  | iowr {a a' : Accelerometer} {t : Nat} {data : BitVec 8} {l : List Access} {e : List (Option Bool)}
      {ds : List (BitVec 8)}
      (hready : a.waitrequest (iowr data) = false)
      (h : Performs chip (a.clock (iowr data) (chip t)) (t + 1) l a' e ds) :
      Performs chip a t (.iowr data :: l) a' ((a.bus.edge (a.busIn (chip t))).toList ++ e) ds
  | iord {a a' : Accelerometer} {t k : Nat} {l : List Access} {e : List (Option Bool)} {ds : List (BitVec 8)}
      (hwait : ∀ u < k, (a.after (fun _ => iord) (fun u => chip (t + u)) u).waitrequest iord = true)
      (hack : (a.after (fun _ => iord) (fun u => chip (t + u)) k).waitrequest iord = false)
      (h : Performs chip (a.after (fun _ => iord) (fun u => chip (t + u)) (k + 1)) (t + (k + 1)) l a' e ds) :
      Performs chip a t (.iord :: l) a' (a.edges (fun _ => iord) (fun u => chip (t + u)) (k + 1) ++ e)
        ((a.after (fun _ => iord) (fun u => chip (t + u)) k).readdata :: ds)

/-- The registers of the chip that are read. -/
def registers : BitVec 6 → List Access → List (BitVec 6)
  | _, [] => []
  | r, .pause :: l => registers r l
  | _, .iowr data :: l => registers (data.setWidth 6) l
  | r, .iord :: l => r :: registers r l

/-- What the chip takes in a read of a register, with its own answer, and the bit at the end that is not determined. -/
def readFrame (chip : Nat → Bool) (r : BitVec 6) (t : Nat) : List (Option Bool) :=
  ([true, false] ++ (List.range 6).map (fun j => r.getMsbD j) ++ answer chip t 3).map some ++ [none]

variable {a a' : Accelerometer} {chip : Nat → Bool}

/-- A clock without an access of the data register. -/
theorem Quiet.clock (h : Quiet a) {i : Avalon} (hi : i.address = false) (x : Bool) :
    Quiet (a.clock i x) ∧ a.bus.edge (a.busIn x) = none := by
  obtain ⟨n, hslow⟩ := h.slow
  have hunasked : (a.busIn x).startTransfer = false := by
    simp [busIn, h.complete, h.start]
  have hidle : (a.clock i x).serialTransfer = .idle := by
    simp [Accelerometer.clock, next, h.idle, hi]
  have hstart : (a.clock i x).startExternalTransfer = false := by
    simp [Accelerometer.clock, h.idle, h.start]
  rcases h.bus with hbus | ⟨hbus, -⟩
  · obtain ⟨hslow', hbus', -⟩ := SerialBus.clock_unasked _ hunasked hslow hbus
    exact ⟨⟨complete_clock h.complete i x, hidle, hstart, ⟨_, hslow'⟩, .inl hbus'⟩,
      SerialBus.edge_of_high _ (by rw [hbus]; decide) (by rw [hbus]; decide)⟩
  · obtain ⟨hslow', hbus', htc⟩ := SerialBus.clock_stop (a.busIn x) hslow hbus
    refine ⟨⟨complete_clock h.complete i x, hidle, hstart, ⟨_, hslow'⟩, ?_⟩,
      SerialBus.edge_of_high _ (by rw [hbus]; decide) (by rw [hbus]; decide)⟩
    split at hbus'
    · exact .inl hbus'
    · exact .inr ⟨hbus', htc⟩

/-- There is always a performance. -/
theorem performs_total (chip : Nat → Bool) (l : List Access) (h : Quiet a) (t : Nat) :
    ∃ a' e ds, Performs chip a t l a' e ds := by
  induction l generalizing a t with
  | nil => exact ⟨a, [], [], .nil a t⟩
  | cons access l ih =>
    cases access with
    | pause =>
      obtain ⟨a', e, ds, hl⟩ := ih (h.clock (i := nothing) rfl (chip t)).1 (t + 1)
      exact ⟨a', _, ds, .pause hl⟩
    | iowr data =>
      obtain ⟨a', e, ds, hl⟩ := ih (h.clock (i := iowr data) rfl (chip t)).1 (t + 1)
      exact ⟨a', _, ds, .iowr rfl hl⟩
    | iord =>
      obtain ⟨k, -, s, hwait, hack, -, -, hquiet, -⟩ := iord_data h fun u => chip (t + u)
      obtain ⟨a', e, ds, hl⟩ := ih hquiet (t + (k + 1))
      exact ⟨a', _, _, .iord hwait hack hl⟩

theorem answer_add (s t k : Nat) : answer (fun u => chip (s + u)) t k = answer chip (s + t) k := by
  simp only [answer, Nat.add_assoc]

/-- What a performance is. -/
theorem performs_frames {t : Nat} {l : List Access} {e : List (Option Bool)} {ds : List (BitVec 8)}
    (hp : Performs chip a t l a' e ds) (h : Quiet a) : Quiet a' ∧
    ∃ ts : List Nat, ts.length = (registers a.addressReg l).length ∧
      ds.map (fun d => (List.range 8).map fun j => d.getMsbD j) = ts.map (fun s => answer chip s 7) ∧
      e = (List.zipWith (readFrame chip) (registers a.addressReg l) ts).flatten := by
  induction hp with
  | nil a t => exact ⟨h, [], rfl, rfl, rfl⟩
  | @pause a a' t l e ds hl ih =>
    obtain ⟨hquiet, hedge⟩ := h.clock (i := nothing) rfl (chip t)
    rw [hedge]
    exact ih hquiet
  | @iowr a a' t data l e ds hready hl ih =>
    obtain ⟨hquiet, hedge⟩ := h.clock (i := iowr data) rfl (chip t)
    rw [hedge]
    exact ih hquiet
  | @iord a a' t k l e ds hwait hack hl ih =>
    obtain ⟨k', -, s, hwait', hack', hdata, hedges, hquiet, haddress⟩ := iord_data h fun u => chip (t + u)
    -- the first clock at which it need not wait
    obtain rfl : k = k' := by
      rcases Nat.lt_trichotomy k k' with hlt | heq | hlt
      · exact absurd ((hwait' k hlt).symm.trans hack) (by decide)
      · exact heq
      · exact absurd ((hwait k' hlt).symm.trans hack') (by decide)
    obtain ⟨hquiet', ts, hlen, hds, he⟩ := ih hquiet
    rw [haddress] at hlen he
    refine ⟨hquiet', (t + s) :: ts, congrArg Nat.succ hlen, ?_, ?_⟩
    · rw [List.map_cons, List.map_cons, hds, hdata, answer_add]
    · rw [hedges, he, answer_add, registers, List.zipWith_cons_cons, List.flatten_cons, readFrame]

/-- **The device does what the driver asks**: from where it is ready any sequence of accesses can be performed; whatever
the clocks between them, the chip takes one read command for each read, of the register that was set last, and
the reads get what it answered to theirs. -/
theorem performs (h : Quiet a) (chip : Nat → Bool) (l : List Access) (t : Nat) :
    (∃ a' e ds, Performs chip a t l a' e ds) ∧ ∀ a' e ds, Performs chip a t l a' e ds →
      Quiet a' ∧ ∃ ts : List Nat, ts.length = (registers a.addressReg l).length ∧
        ds.map (fun d => (List.range 8).map fun j => d.getMsbD j) = ts.map (fun s => answer chip s 7) ∧
        e = (List.zipWith (readFrame chip) (registers a.addressReg l) ts).flatten :=
  ⟨performs_total chip l h t, fun _ _ _ hp => performs_frames hp h⟩

theorem performs_one : ∃ a : Accelerometer, Quiet a ∧
    (∃ a' e ds, Performs (fun _ => true) a 0 [.iowr 0x32#8, .pause, .iord] a' e ds) ∧
    ∀ a' e ds, Performs (fun _ => true) a 0 [.iowr 0x32#8, .pause, .iord] a' e ds →
      Quiet a' ∧ ∃ ts : List Nat, ts.length = (registers a.addressReg [.iowr 0x32#8, .pause, .iord]).length ∧
        ds.map (fun d => (List.range 8).map fun j => d.getMsbD j) = ts.map (fun s => answer (fun _ => true) s 7) ∧
        e = (List.zipWith (readFrame fun _ => true)
          (registers a.addressReg [.iowr 0x32#8, .pause, .iord]) ts).flatten :=
  ⟨_, quiet_ready, performs quiet_ready (fun _ => true) [.iowr 0x32#8, .pause, .iord] 0⟩

end Accelerometer

/-! ## The axes -/

open Accelerometer

def ACCELEROMETER_SPI_X_AXIS_LOWER_BYTE : BitVec 8 := 0x32#8
def ACCELEROMETER_SPI_X_AXIS_UPPER_BYTE : BitVec 8 := 0x33#8
def ACCELEROMETER_SPI_Y_AXIS_LOWER_BYTE : BitVec 8 := 0x34#8
def ACCELEROMETER_SPI_Y_AXIS_UPPER_BYTE : BitVec 8 := 0x35#8
def ACCELEROMETER_SPI_Z_AXIS_LOWER_BYTE : BitVec 8 := 0x36#8
def ACCELEROMETER_SPI_Z_AXIS_UPPER_BYTE : BitVec 8 := 0x37#8

/-- The accesses of a read of an axis. -/
def readAxis (lower upper : BitVec 8) : List Access :=
  [.iowr (lower &&& 0x3F#8), .iord, .iowr (upper &&& 0x3F#8), .iord]

/-- The value it makes of the bytes. -/
def axis (lower upper : BitVec 8) : BitVec 32 :=
  let x := lower.setWidth 32 &&& 0xFFFF#32
  let x := x + ((upper.setWidth 32 &&& 0xFFFF#32) <<< 8)
  if x &&& 0x8000#32 ≠ 0#32 then x ||| 0xFFFF0000#32 else x

def readAccerometer : List Access :=
  readAxis ACCELEROMETER_SPI_X_AXIS_LOWER_BYTE ACCELEROMETER_SPI_X_AXIS_UPPER_BYTE ++
  readAxis ACCELEROMETER_SPI_Y_AXIS_LOWER_BYTE ACCELEROMETER_SPI_Y_AXIS_UPPER_BYTE ++
  readAxis ACCELEROMETER_SPI_Z_AXIS_LOWER_BYTE ACCELEROMETER_SPI_Z_AXIS_UPPER_BYTE

/-- `coords`, from the bytes that are read. -/
def coords : List (BitVec 8) → List (BitVec 32)
  | lower :: upper :: ds => axis lower upper :: coords ds
  | _ => []

theorem axis_word (lower upper : BitVec 8) :
    (lower.setWidth 32 &&& 0xFFFF#32) + ((upper.setWidth 32 &&& 0xFFFF#32) <<< 8) = (upper ++ lower).setWidth 32 := by
  have hl := lower.isLt
  have hu := upper.isLt
  have hmask : ∀ v : BitVec 8, (v.setWidth 32 &&& 0xFFFF#32).toNat = v.toNat := by
    intro v
    have hv := v.isLt
    rw [BitVec.toNat_and, show (0xFFFF#32).toNat = 2 ^ 16 - 1 from rfl, Nat.and_two_pow_sub_one_eq_mod,
      BitVec.toNat_setWidth]
    omega
  refine BitVec.eq_of_toNat_eq ?_
  rw [BitVec.toNat_add, BitVec.toNat_shiftLeft, hmask, hmask, BitVec.toNat_setWidth, BitVec.toNat_append,
    ← Nat.shiftLeft_add_eq_or_of_lt hl, Nat.shiftLeft_eq]
  omega

theorem or_eq_signExtend (w : BitVec 16) :
    (if w.setWidth 32 &&& 0x8000#32 ≠ 0#32 then w.setWidth 32 ||| 0xFFFF0000#32 else w.setWidth 32) =
      w.signExtend 32 := by
  have hsign : w.setWidth 32 &&& 0x8000#32 = if w.msb then BitVec.twoPow 32 15 else 0#32 := by
    rw [show 0x8000#32 = BitVec.twoPow 32 15 from rfl, BitVec.and_twoPow, BitVec.msb_eq_getLsbD_last]
    simp
  rw [hsign]
  cases hmsb : w.msb with
  | false => simp [BitVec.signExtend_eq_setWidth_of_msb_false hmsb]
  | true =>
    rw [if_pos rfl, if_pos (by decide)]
    have hhigh : ∀ i < 32, (0xFFFF0000#32).getLsbD i = decide (16 ≤ i) := by decide
    refine BitVec.eq_of_getLsbD_eq fun i hi => ?_
    rw [BitVec.getLsbD_or, BitVec.getLsbD_setWidth, hhigh i hi, BitVec.getLsbD_signExtend, hmsb]
    by_cases h16 : i < 16
    · simp [h16, hi, Nat.not_le.2 h16]
    · simp [h16, hi, Nat.le_of_not_lt h16]

theorem axis_eq (lower upper : BitVec 8) : axis lower upper = (upper ++ lower).signExtend 32 := by
  rw [← or_eq_signExtend, ← axis_word, axis]

theorem registers_filter (r : BitVec 6) (l : List Access) : registers r (l.filter (· ≠ .pause)) = registers r l := by
  induction l generalizing r with
  | nil => rfl
  | cons access l ih =>
    cases access with
    | pause => exact ih r
    | iowr data => exact ih (data.setWidth 6)
    | iord => exact congrArg (r :: ·) (ih r)

/-- **A sample**: however long the processor is busy with other things between the accesses of `read_accerometer`, the
coordinates are the answers to six read commands, of the registers 0x32 to 0x37 in order, two bytes to a
number in two's complement. -/
theorem accerometer_read {a a' : Accelerometer} {chip : Nat → Bool} {t : Nat} {l : List Access} {e : List (Option Bool)}
    {ds : List (BitVec 8)} (h : Quiet a) (hl : l.filter (· ≠ .pause) = readAccerometer)
    (hp : Performs chip a t l a' e ds) : ∃ ts : List Nat,
      e = (List.zipWith (readFrame chip) [0x32#6, 0x33#6, 0x34#6, 0x35#6, 0x36#6, 0x37#6] ts).flatten ∧
      ds.map (fun d => (List.range 8).map fun j => d.getMsbD j) = ts.map (fun s => answer chip s 7) ∧
      ∃ x₀ x₁ y₀ y₁ z₀ z₁, ds = [x₀, x₁, y₀, y₁, z₀, z₁] ∧
        coords ds = [(x₁ ++ x₀).signExtend 32, (y₁ ++ y₀).signExtend 32, (z₁ ++ z₀).signExtend 32] := by
  obtain ⟨-, ts, hlen, hds, he⟩ := performs_frames hp h
  have hregisters : registers a.addressReg l = [0x32#6, 0x33#6, 0x34#6, 0x35#6, 0x36#6, 0x37#6] := by
    rw [← registers_filter, hl]
    rfl
  rw [hregisters] at hlen he
  refine ⟨ts, he, hds, ?_⟩
  have hlen' : ds.length = 6 := by
    have := congrArg List.length hds
    rw [List.length_map, List.length_map, hlen] at this
    exact this
  obtain ⟨x₀, x₁, y₀, y₁, z₀, z₁, rfl⟩ : ∃ x₀ x₁ y₀ y₁ z₀ z₁, ds = [x₀, x₁, y₀, y₁, z₀, z₁] := by
    rcases ds with _ | ⟨x₀, _ | ⟨x₁, _ | ⟨y₀, _ | ⟨y₁, _ | ⟨z₀, _ | ⟨z₁, _ | ⟨u, ds⟩⟩⟩⟩⟩⟩⟩ <;>
      simp_all
  refine ⟨x₀, x₁, y₀, y₁, z₀, z₁, rfl, ?_⟩
  show [axis x₀ x₁, axis y₀ y₁, axis z₀ z₁] = _
  rw [axis_eq, axis_eq, axis_eq]

theorem accerometer_read_paused : ∃ (a a' : Accelerometer) (e : List (Option Bool)) (ds : List (BitVec 8)), Quiet a ∧
    Performs (fun s => s % 5 = 0) a 7 (.pause :: readAccerometer) a' e ds ∧ ∃ ts : List Nat,
      e = (List.zipWith (readFrame fun s => s % 5 = 0) [0x32#6, 0x33#6, 0x34#6, 0x35#6, 0x36#6, 0x37#6] ts).flatten ∧
      ds.map (fun d => (List.range 8).map fun j => d.getMsbD j) = ts.map (fun s => answer (fun s => s % 5 = 0) s 7) ∧
      ∃ x₀ x₁ y₀ y₁ z₀ z₁, ds = [x₀, x₁, y₀, y₁, z₀, z₁] ∧
        coords ds = [(x₁ ++ x₀).signExtend 32, (y₁ ++ y₀).signExtend 32, (z₁ ++ z₀).signExtend 32] := by
  obtain ⟨a', e, ds, hp⟩ := performs_total (fun s => s % 5 = 0) (.pause :: readAccerometer) quiet_ready 7
  exact ⟨_, a', e, ds, quiet_ready, hp, accerometer_read quiet_ready rfl hp⟩

end NuttyNios
