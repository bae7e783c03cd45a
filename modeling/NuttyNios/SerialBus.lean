import Mathlib
/-!
# The serial bus of the accelerometer
(nios2system/synthesis/submodules/altera_up_accelerometer_spi_serial_bus_controller.v)

| here | there |
| --- | --- |
| `SlowClock`        | `altera_up_accelerometer_spi_slow_clock_generator` |
| `SerialBus.clock`  | a clock edge of the controller |
| `serialClk`, `wire` | its pins `serial_clk` and `serial_data` |

The widths are those that nios2system_accelerometer_spi.v sets (`DW` is 15, `CW` and `SCCW` are 4). The chip drives
the wire where the controller leaves it (`chip`), and takes a bit at each rising edge of the serial clock while it
is selected (`edge`): `word_exchanged` says which bits these are, and what the controller gets. The last rising edge
of an exchange comes with the end of the transfer, when the wire changes too; what the chip takes there is not
determined, and it is `none` here.
-/

namespace NuttyNios

structure SlowClock where
  clkCounter : BitVec 4
  newClk : Bool
  middleOfHighLevel : Bool
  middleOfLowLevel : Bool

namespace SlowClock

def reset : SlowClock := ⟨0#4, false, false, false⟩

def clock (c : SlowClock) : SlowClock where
  clkCounter := c.clkCounter + 1#4
  newClk := c.clkCounter.getLsbD 3
  middleOfHighLevel := c.clkCounter.getLsbD 3 && !c.clkCounter.getLsbD 2 &&
    (c.clkCounter.getLsbD 1 && c.clkCounter.getLsbD 0)
  middleOfLowLevel := !c.clkCounter.getLsbD 3 && !c.clkCounter.getLsbD 2 &&
    (c.clkCounter.getLsbD 1 && c.clkCounter.getLsbD 0)

/-- Where it is in its period. -/
def phase (n : BitVec 4) : SlowClock := ⟨n, (n - 1#4).getLsbD 3, n = 12#4, n = 4#4⟩

theorem clock_reset : reset.clock = phase 1#4 := rfl

@[simp] theorem phase_newClk (n : BitVec 4) : (phase n).newClk = (n - 1#4).getLsbD 3 := rfl

@[simp] theorem phase_high (n : BitVec 4) : (phase n).middleOfHighLevel = decide (n = 12#4) := rfl

@[simp] theorem phase_low (n : BitVec 4) : (phase n).middleOfLowLevel = decide (n = 4#4) := rfl

@[simp] theorem clock_phase (n : BitVec 4) : (phase n).clock = phase (n + 1#4) := by
  have h : ∀ n : BitVec 4, n.getLsbD 3 = (n + 1#4 - 1#4).getLsbD 3 ∧
      (n.getLsbD 3 && !n.getLsbD 2 && (n.getLsbD 1 && n.getLsbD 0)) = decide (n + 1#4 = 12#4) ∧
      (!n.getLsbD 3 && !n.getLsbD 2 && (n.getLsbD 1 && n.getLsbD 0)) = decide (n + 1#4 = 4#4) := by decide
  obtain ⟨h₁, h₂, h₃⟩ := h n
  rw [clock, phase, phase, h₁.symm, h₂.symm, h₃.symm]

end SlowClock

/-- `s_serial_protocol`; `initial` is `STATE_1_INITIALIZE`. -/
inductive Protocol
  | idle
  | initial
  | startBit
  | transfer
  | stopBit
deriving DecidableEq

structure SerialBus where
  slow : SlowClock
  protocol : Protocol
  counter : BitVec 5
  shiftregData : BitVec 16
  shiftregMask : BitVec 16
  newData : Bool
  serialEn : Bool
  transferComplete : Bool

/-- What comes in at a clock: from the device, and what the chip puts on the wire. -/
structure BusIn where
  startTransfer : Bool
  dataIn : BitVec 16
  transferMask : BitVec 16
  chip : Bool

namespace SerialBus

def reset : SerialBus where
  slow := SlowClock.reset
  protocol := .idle
  counter := 0#5
  shiftregData := 0#16
  shiftregMask := 0#16
  newData := false
  serialEn := true
  transferComplete := false

def serialClk (b : SerialBus) : Bool :=
  if b.protocol = .transfer ∨ b.protocol = .startBit then b.slow.newClk else true

/-- `serial_data`, which the chip drives where the mask is set. -/
def wire (b : SerialBus) (chip : Bool) : Bool :=
  match b.protocol with
  | .idle => true
  | .transfer => if b.shiftregMask.msb then chip else b.shiftregData.msb
  | _ => false

def next (b : SerialBus) (i : BusIn) : Protocol :=
  match b.protocol with
  | .idle => if i.startTransfer && !b.transferComplete && b.slow.middleOfHighLevel then .initial else .idle
  | .initial => .startBit
  | .startBit => if b.slow.middleOfLowLevel then .transfer else .startBit
  | .transfer => if b.slow.middleOfLowLevel && b.counter = 15#5 then .stopBit else .transfer
  | .stopBit => if b.slow.middleOfHighLevel then .idle else .stopBit

def clock (b : SerialBus) (i : BusIn) : SerialBus where
  slow := b.slow.clock
  protocol := b.next i
  counter :=
    if b.protocol = .initial then 0#5
    else if b.slow.middleOfLowLevel && b.protocol = .transfer then b.counter + 1#5 else b.counter
  shiftregData :=
    if b.protocol = .initial then i.dataIn
    else if b.slow.middleOfLowLevel && b.protocol = .transfer then b.shiftregData.shiftConcat b.newData
    else b.shiftregData
  shiftregMask :=
    if b.protocol = .initial then i.transferMask
    else if b.slow.middleOfLowLevel && b.protocol = .transfer then b.shiftregMask.shiftConcat false
    else b.shiftregMask
  newData := if b.slow.middleOfHighLevel && b.protocol = .transfer then b.wire i.chip else b.newData
  serialEn := if b.protocol = .initial then false else if b.protocol = .stopBit then true else b.serialEn
  transferComplete :=
    if b.protocol = .stopBit then true else if !i.startTransfer then false else b.transferComplete

/-- What the chip takes at a clock, if the serial clock rises while it is selected: the wire, as long as the
controller stays in its state. If it leaves it, both pins change with the state, and it may be either bit. -/
def edge (b : SerialBus) (i : BusIn) : Option (Option Bool) :=
  if !b.serialClk && (b.clock i).serialClk && !(b.clock i).serialEn then
    some (if (b.clock i).protocol = b.protocol then some ((b.clock i).wire i.chip) else none)
  else none

/-- After some clocks. -/
def after (b : SerialBus) (f : Nat → BusIn) : Nat → SerialBus
  | 0 => b
  | t + 1 => (b.after f t).clock (f t)

/-- What the chip has taken. -/
def edges (b : SerialBus) (f : Nat → BusIn) : Nat → List (Option Bool)
  | 0 => []
  | t + 1 => b.edges f t ++ ((b.after f t).edge (f t)).toList

/-! ## An exchange -/

section
variable {d m : BitVec 16} {chip : Nat → Bool} {b : SerialBus} {t : Nat} {n : BitVec 4} {c : BitVec 5} {x y w v : Bool}
  {p q : BitVec 16}

/-- The device asks for an exchange, and keeps asking. -/
def held (d m : BitVec 16) (chip : Nat → Bool) (t : Nat) : BusIn := ⟨true, d, m, chip t⟩

/-- Nothing happens but that the slow clock goes on. -/
def Waits : Protocol → BitVec 4 → Prop
  | .idle, n => n ≠ 12#4
  | .startBit, n => n ≠ 4#4
  | .transfer, n => n ≠ 4#4 ∧ n ≠ 12#4
  | _, _ => False

instance (s : Protocol) (n : BitVec 4) : Decidable (Waits s n) := by
  cases s <;> unfold Waits <;> infer_instance

/-- When the serial clock rises. -/
def Rises : Protocol → BitVec 4 → Prop
  | .startBit, n | .transfer, n => n = 8#4
  | _, _ => False

instance (s : Protocol) (n : BitVec 4) : Decidable (Rises s n) := by
  cases s <;> unfold Rises <;> infer_instance

theorem clock_waits {s : Protocol} (hw : Waits s n) (hv : s = .idle → v = false) (i : BusIn)
    (hi : i.startTransfer = true) :
    (⟨.phase n, s, c, p, q, x, y, v⟩ : SerialBus).clock i = ⟨.phase (n + 1#4), s, c, p, q, x, y, v⟩ := by
  cases s with
  | idle => simp [clock, next, hi, show n ≠ 12#4 from hw]
  | startBit => simp [clock, next, hi, show n ≠ 4#4 from hw]
  | transfer => simp [clock, next, hi, hw.1, hw.2]
  | initial | stopBit => exact hw.elim

/-- The serial clock rises in the middle of its period only. -/
theorem edge_waits {s : Protocol} (hw : Waits s n) (hv : s = .idle → v = false) (i : BusIn)
    (hi : i.startTransfer = true) :
    (⟨.phase n, s, c, p, q, x, y, v⟩ : SerialBus).edge i = if Rises s n ∧ y = false then
      some (some ((⟨.phase (n + 1#4), s, c, p, q, x, y, v⟩ : SerialBus).wire i.chip)) else none := by
  have hclk : ∀ n : BitVec 4, (n - 1#4).getLsbD 3 = false ∧ (n + 1#4 - 1#4).getLsbD 3 = true ↔ n = 8#4 := by decide
  rw [edge, clock_waits hw hv i hi]
  refine if_congr ?_ (by rw [if_pos rfl]) rfl
  cases s with
  | idle => simp [serialClk, Rises]
  | startBit | transfer => simpa [serialClk, Rises] using fun _ => hclk n
  | initial | stopBit => exact hw.elim

/-- While nothing happens. -/
theorem after_waits {s : Protocol} {k : Nat} (h : b.after (held d m chip) t = ⟨.phase n, s, c, p, q, x, y, v⟩)
    (hw : ∀ l < k, Waits s (n + BitVec.ofNat 4 l)) (hv : s = .idle → v = false) :
    b.after (held d m chip) (t + k) = ⟨.phase (n + BitVec.ofNat 4 k), s, c, p, q, x, y, v⟩ := by
  induction k with
  | zero => simpa using h
  | succ k ih =>
    have hk := ih fun l hl => hw l (hl.trans (Nat.lt_succ_self k))
    rw [← Nat.add_assoc, after, hk, clock_waits (hw k (Nat.lt_succ_self k)) hv _ rfl, BitVec.add_assoc,
      ← BitVec.ofNat_add]

theorem edges_waits {s : Protocol} {k : Nat} (h : b.after (held d m chip) t = ⟨.phase n, s, c, p, q, x, y, v⟩)
    (hw : ∀ l < k, Waits s (n + BitVec.ofNat 4 l) ∧ ¬ Rises s (n + BitVec.ofNat 4 l)) (hv : s = .idle → v = false) :
    b.edges (held d m chip) (t + k) = b.edges (held d m chip) t := by
  induction k with
  | zero => rfl
  | succ k ih =>
    have hbefore : ∀ l < k, Waits s (n + BitVec.ofNat 4 l) := fun l hl => (hw l (hl.trans (Nat.lt_succ_self k))).1
    obtain ⟨hwait, hrise⟩ := hw k (Nat.lt_succ_self k)
    rw [← Nat.add_assoc, edges, ih fun l hl => hw l (hl.trans (Nat.lt_succ_self k)), after_waits h hbefore hv,
      edge_waits hwait hv _ rfl, if_neg fun h => hrise h.1]
    exact List.append_nil _

/-- The request is seen, the word is loaded, and the first bit begins: the chip takes nothing yet. -/
theorem clock_idle (i : BusIn) (hi : i.startTransfer = true) :
    (⟨.phase 12#4, .idle, c, p, q, x, y, false⟩ : SerialBus).clock i = ⟨.phase 13#4, .initial, c, p, q, x, y, false⟩ ∧
      (⟨.phase 12#4, .idle, c, p, q, x, y, false⟩ : SerialBus).edge i = none := by
  simp [edge, serialClk, clock, next, hi]

theorem clock_initial (i : BusIn) (hi : i.startTransfer = true) :
    (⟨.phase 13#4, .initial, c, p, q, x, y, v⟩ : SerialBus).clock i =
      ⟨.phase 14#4, .startBit, 0#5, i.dataIn, i.transferMask, x, false, v⟩ ∧
    (⟨.phase 13#4, .initial, c, p, q, x, y, v⟩ : SerialBus).edge i = none := by
  simp [edge, serialClk, clock, next, hi]

theorem clock_startBit (i : BusIn) (hi : i.startTransfer = true) :
    (⟨.phase 4#4, .startBit, c, p, q, x, y, v⟩ : SerialBus).clock i = ⟨.phase 5#4, .transfer, c, p, q, x, y, v⟩ ∧
      (⟨.phase 4#4, .startBit, c, p, q, x, y, v⟩ : SerialBus).edge i = none := by
  simp [edge, serialClk, clock, next, hi]

theorem clock_stopBit (i : BusIn) : (⟨.phase 5#4, .stopBit, c, p, q, x, y, v⟩ : SerialBus).clock i =
      ⟨.phase 6#4, .stopBit, c, p, q, x, true, true⟩ ∧
    (⟨.phase 5#4, .stopBit, c, p, q, x, y, v⟩ : SerialBus).edge i = none := by
  simp [edge, serialClk, clock, next]

/-- A clock at which the chip takes nothing. -/
theorem after_edges_succ {f : Nat → BusIn} {s s' : SerialBus} {l : List (Option Bool)} (h : b.after f t = s)
    (he : b.edges f t = l) (hs : s.clock (f t) = s' ∧ s.edge (f t) = none) :
    b.after f (t + 1) = s' ∧ b.edges f (t + 1) = l := by
  rw [after, edges, h, he, hs.2]
  exact ⟨hs.1, List.append_nil l⟩

/-- In the middle of the high level the wire is taken. -/
theorem clock_sample (i : BusIn) (hi : i.startTransfer = true) :
    (⟨.phase 12#4, .transfer, c, p, q, x, y, v⟩ : SerialBus).clock i = ⟨.phase 13#4, .transfer, c, p, q,
      (⟨.phase 12#4, .transfer, c, p, q, x, y, v⟩ : SerialBus).wire i.chip, y, v⟩ := by
  simp [clock, next, hi]

theorem edge_sample (i : BusIn) : (⟨.phase 12#4, .transfer, c, p, q, x, y, v⟩ : SerialBus).edge i = none := by
  simp [edge, serialClk]

/-- In the middle of the low level it is shifted in; after the last bit the serial clock goes up at once. -/
theorem clock_shift (i : BusIn) (hi : i.startTransfer = true) :
    (⟨.phase 4#4, .transfer, c, p, q, x, y, v⟩ : SerialBus).clock i =
      ⟨.phase 5#4, if c = 15#5 then .stopBit else .transfer, c + 1#5, p.shiftConcat x, q.shiftConcat false,
        x, y, v⟩ := by
  simp [clock, next, hi]

theorem edge_shift (i : BusIn) : (⟨.phase 4#4, .transfer, c, p, q, x, false, v⟩ : SerialBus).edge i =
    if c = 15#5 then some none else none := by
  by_cases hc : c = 15#5 <;> simp [edge, serialClk, clock, next, hc]

/-- The bits, shifted in from the right. -/
def shifted (p : BitVec 16) (bits : List Bool) : BitVec 16 := bits.foldl BitVec.shiftConcat p

/-- What is on the wire while bit `j` is exchanged. -/
def onWire (d m : BitVec 16) (j : Nat) (chip : Bool) : Bool := if m.getMsbD j then chip else d.getMsbD j

/-- The first `j` bits of an exchange that begins at `t`, each as it is on the wire after `k` clocks. -/
def bits (d m : BitVec 16) (chip : Nat → Bool) (t k j : Nat) : List Bool :=
  (List.range j).map fun i => onWire d m i (chip (t + 16 * i + k))

theorem bits_succ (k j : Nat) :
    bits d m chip t k (j + 1) = bits d m chip t k j ++ [onWire d m j (chip (t + 16 * j + k))] := by
  rw [bits, List.range_succ, List.map_append]
  rfl

theorem map_bits_succ (k j : Nat) : (bits d m chip t k j).map some ++ [some (onWire d m j (chip (t + 16 * j + k)))] =
    (bits d m chip t k (j + 1)).map some := by
  rw [bits_succ, List.map_append]
  rfl

theorem shifted_concat (l : List Bool) : shifted p (l ++ [x]) = (shifted p l).shiftConcat x := by
  rw [shifted, List.foldl_append]
  rfl

theorem getMsbD_shiftConcat (w : BitVec 16) (x : Bool) {j : Nat} (hj : j < 16) :
    (w.shiftConcat x).getMsbD j = if j = 15 then x else w.getMsbD (j + 1) := by
  rw [BitVec.getMsbD_eq_getLsbD, BitVec.getLsbD_shiftConcat, BitVec.getMsbD_eq_getLsbD, decide_eq_true hj]
  by_cases h15 : j = 15
  · simp [h15]
  · rw [if_neg (by omega), if_neg h15, decide_eq_true (by omega), decide_eq_true (by omega),
      show 16 - 1 - j - 1 = 16 - 1 - (j + 1) by omega, Bool.true_and]

theorem getMsbD_shifted (l : List Bool) {j : Nat} (hj : l.length + j < 16) :
    (shifted p l).getMsbD j = p.getMsbD (l.length + j) := by
  induction l using List.reverseRecOn generalizing j with
  | nil => rw [List.length_nil, Nat.zero_add, shifted, List.foldl_nil]
  | append_singleton l x ih =>
    rw [List.length_append, List.length_singleton] at hj ⊢
    rw [shifted_concat, getMsbD_shiftConcat _ _ (by omega), if_neg (by omega), ih (by omega)]
    congr 1
    omega

/-- Sixteen bits are the word. -/
theorem getMsbD_shifted_in {l : List Bool} (hl : l.length ≤ 16) {j : Nat} (hj : j < l.length) :
    (shifted p l).getMsbD (16 - l.length + j) = l[j] := by
  induction l using List.reverseRecOn with
  | nil => cases hj
  | append_singleton l x ih =>
    rw [List.length_append, List.length_singleton] at hl
    have hlen : (l ++ [x]).length = l.length + 1 := List.length_append
    rw [hlen] at hj
    rw [shifted_concat, getMsbD_shiftConcat _ _ (by omega)]
    by_cases hlast : j = l.length
    · subst hlast
      rw [if_pos (by omega), List.getElem_concat_length rfl]
    · have hjl : j < l.length := by omega
      rw [if_neg (by omega), List.getElem_append_left hjl, ← ih (by omega) hjl]
      congr 1
      omega

/-- Where the controller is when `j` bits are exchanged. -/
def exchanging (d m : BitVec 16) (l : List Bool) (x : Bool) : SerialBus :=
  ⟨.phase 5#4, .transfer, BitVec.ofNat 5 l.length, shifted d l, shifted m (List.replicate l.length false), x,
    false, false⟩

theorem wire_exchanging (l : List Bool) (hl : l.length < 16) (n : BitVec 4) (z : Bool) :
    (⟨.phase n, .transfer, c, shifted d l, shifted m (List.replicate l.length false), x, y, v⟩ : SerialBus).wire z =
      onWire d m l.length z := by
  have hd := getMsbD_shifted (p := d) l (j := 0) hl
  have hm := getMsbD_shifted (p := m) (List.replicate l.length false) (j := 0) (by simpa using hl)
  rw [← BitVec.msb_eq_getMsbD_zero] at hd hm
  rw [wire, onWire, hd, hm]
  simp

/-- A bit of the exchange takes 16 clocks: the chip takes it after three, the controller after seven. -/
theorem cell {l : List Bool} (hl : l.length < 16) (h : b.after (held d m chip) t = exchanging d m l x) :
    (∃ z, b.after (held d m chip) (t + 16) = { exchanging d m (l ++ [onWire d m l.length (chip (t + 7))]) z with
      protocol := if l.length = 15 then .stopBit else .transfer }) ∧
    b.edges (held d m chip) (t + 16) = b.edges (held d m chip) t ++ [some (onWire d m l.length (chip (t + 3)))] ++
      if l.length = 15 then [none] else [] := by
  -- to the rising edge
  have h8 := after_waits (k := 3) h (by decide) (by simp)
  have e8 := edges_waits (k := 3) h (by decide) (by simp)
  have h9 : b.after (held d m chip) (t + 4) = _ :=
    (congrArg (clock · _) h8).trans (clock_waits (by decide) (by simp) _ rfl)
  have e9 : b.edges (held d m chip) (t + 4) =
      b.edges (held d m chip) t ++ [some (onWire d m l.length (chip (t + 3)))] := by
    rw [edges, e8, h8, edge_waits (by decide) (by simp) _ rfl, if_pos (by decide), wire_exchanging l hl]
    rfl
  -- to the middle of the high level
  have h12 := after_waits (k := 3) h9 (by decide) (by simp)
  have e12 := edges_waits (k := 3) h9 (by decide) (by simp)
  have hsample : b.after (held d m chip) (t + 8) = ⟨.phase 13#4, .transfer, BitVec.ofNat 5 l.length, shifted d l,
      shifted m (List.replicate l.length false), onWire d m l.length (chip (t + 7)), false, false⟩ := by
    rw [show t + 8 = t + 7 + 1 from rfl, after, h12]
    exact (clock_sample _ rfl).trans (by rw [wire_exchanging l hl]; rfl)
  have esample : b.edges (held d m chip) (t + 8) = b.edges (held d m chip) (t + 7) := by
    rw [show t + 8 = t + 7 + 1 from rfl, edges, h12]
    exact (congrArg (_ ++ Option.toList ·) (edge_sample _)).trans (List.append_nil _)
  -- to the middle of the low level
  have h4 := after_waits (k := 7) hsample (by decide) (by simp)
  have e4 := edges_waits (k := 7) hsample (by decide) (by simp)
  have hlast : BitVec.ofNat 5 l.length = 15#5 ↔ l.length = 15 := by
    rw [← BitVec.toNat_inj, BitVec.toNat_ofNat, Nat.mod_eq_of_lt (by omega)]
    rfl
  constructor
  · refine ⟨onWire d m l.length (chip (t + 7)), ?_⟩
    rw [show t + 16 = t + 8 + 7 + 1 from rfl, after, h4]
    refine (clock_shift _ rfl).trans ?_
    rw [exchanging, shifted_concat, List.length_append, List.length_singleton, List.replicate_succ', shifted_concat,
      BitVec.ofNat_add]
    simp only [hlast]
  · rw [show t + 16 = t + 8 + 7 + 1 from rfl, edges, h4, e4, esample]
    refine congrArg₂ (· ++ ·) (e12.trans e9) ?_
    refine (congrArg Option.toList (edge_shift _)).trans ?_
    simp only [hlast]
    split <;> rfl

theorem bits_length (d m : BitVec 16) (chip : Nat → Bool) (t k j : Nat) : (bits d m chip t k j).length = j := by
  rw [bits, List.length_map, List.length_range]

/-- The bits before the last. -/
theorem cells (h : b.after (held d m chip) t = exchanging d m [] x) (he : b.edges (held d m chip) t = []) {j : Nat}
    (hj : j ≤ 15) : (∃ z, b.after (held d m chip) (t + 16 * j) = exchanging d m (bits d m chip t 7 j) z) ∧
      b.edges (held d m chip) (t + 16 * j) = (bits d m chip t 3 j).map some := by
  induction j with
  | zero => exact ⟨⟨x, h⟩, he⟩
  | succ j ih =>
    obtain ⟨⟨z, hz⟩, hedges⟩ := ih (by omega)
    have hlen := bits_length d m chip t 7 j
    obtain ⟨⟨z', hz'⟩, hedges'⟩ := cell (by omega) hz
    rw [hlen, ← bits_succ, if_neg (by omega)] at hz'
    rw [hlen, hedges, map_bits_succ, if_neg (by omega), List.append_nil] at hedges'
    exact ⟨⟨z', hz'⟩, hedges'⟩

/-- From the request to the first bit. -/
theorem asked (d m : BitVec 16) (chip : Nat → Bool) (hslow : b.slow = .phase n) (hidle : b.protocol = .idle)
    (hready : b.transferComplete = false) :
    b.after (held d m chip) ((12#4 - n).toNat + 9) = exchanging d m [] b.newData ∧
      b.edges (held d m chip) ((12#4 - n).toNat + 9) = [] := by
  have hwait : ∀ n : BitVec 4, ∀ l < (12#4 - n).toNat, n + BitVec.ofNat 4 l ≠ 12#4 := by decide
  have h0 : b.after (held d m chip) 0 =
      ⟨.phase n, .idle, b.counter, b.shiftregData, b.shiftregMask, b.newData, b.serialEn, false⟩ := by
    rw [← hslow, ← hidle, ← hready]
    rfl
  have h12 := after_waits h0 (hwait n) fun _ => rfl
  have e12 := edges_waits h0 (fun l hl => ⟨hwait n l hl, id⟩) fun _ => rfl
  rw [Nat.zero_add, BitVec.ofNat_toNat, BitVec.setWidth_eq, add_sub_cancel] at h12
  rw [Nat.zero_add] at e12
  obtain ⟨h13, e13⟩ := after_edges_succ h12 e12 (clock_idle _ rfl)
  obtain ⟨h14, e14⟩ := after_edges_succ h13 e13 (clock_initial _ rfl)
  have h4 := after_waits (k := 6) h14 (by decide) (by simp)
  have e4 := edges_waits (k := 6) h14 (by decide) (by simp)
  exact after_edges_succ h4 (e4.trans e14) (clock_startBit _ rfl)

/-- Once complete, it stays so while the request is held. -/
theorem complete_mono (h : (b.after (held d m chip) t).transferComplete = true) {u : Nat} (hu : t ≤ u) :
    (b.after (held d m chip) u).transferComplete = true := by
  induction u, hu using Nat.le_induction with
  | base => exact h
  | succ u _ ih =>
    rw [after]
    show (if _ then true else if !true then false else _) = true
    rw [ih]
    split <;> rfl

/-- An exchange: it is complete 257 clocks after the first bit began, and not before. -/
theorem exchange (d m : BitVec 16) (chip : Nat → Bool) (hslow : b.slow = .phase n) (hidle : b.protocol = .idle)
    (hready : b.transferComplete = false) :
    ∃ k ≤ 24, ∃ z, b.after (held d m chip) (k + 257) = ⟨.phase 6#4, .stopBit, 16#5, shifted d (bits d m chip k 7 16),
      shifted m (List.replicate 16 false), z, true, true⟩ ∧
    b.edges (held d m chip) (k + 257) = (bits d m chip k 3 16).map some ++ [none] ∧
    ∀ u < k + 257, (b.after (held d m chip) u).transferComplete = false := by
  have hn := (12#4 - n).isLt
  refine ⟨(12#4 - n).toNat + 9, by omega, ?_⟩
  obtain ⟨h0, e0⟩ := asked d m chip hslow hidle hready
  obtain ⟨⟨z, hz⟩, hedges⟩ := cells h0 e0 (le_refl 15)
  have hlen := bits_length d m chip ((12#4 - n).toNat + 9) 7 15
  obtain ⟨⟨z', hz'⟩, hedges'⟩ := cell (by omega) hz
  rw [hlen, ← bits_succ, if_pos rfl] at hz'
  rw [hlen, hedges, map_bits_succ, if_pos rfl] at hedges'
  have hlen' := bits_length d m chip ((12#4 - n).toNat + 9) 7 (15 + 1)
  obtain ⟨hlast, elast⟩ := after_edges_succ hz' hedges' (by rw [exchanging, hlen']; exact clock_stopBit _)
  refine ⟨z', hlast, elast, fun u hu => ?_⟩
  refine (Bool.not_eq_true _).mp fun hu' => ?_
  have := complete_mono hu' (Nat.le_of_lt_succ hu)
  rw [hz'] at this
  cases this

/-- From the first clock on, the slow clock is at some phase. -/
theorem slow_phase (f : Nat → BusIn) (t : Nat) : ((reset.after f (t + 1)).slow) = .phase (BitVec.ofNat 4 (t + 1)) := by
  induction t with
  | zero => exact SlowClock.clock_reset
  | succ t ih =>
    rw [after]
    show (reset.after f (t + 1)).slow.clock = _
    rw [ih, SlowClock.clock_phase, ← BitVec.ofNat_add]

/-- **A word is exchanged**: wherever a run has left the controller, if it is idle and a transfer is asked for, it is
complete within 281 clocks and not before. The chip has then taken the 16 bits of the word, with its own where the
mask is set, and one more that is not determined; the controller has the bits as they were four clocks later. -/
theorem word_exchanged (f : Nat → BusIn) (t : Nat) (d m : BitVec 16) (chip : Nat → Bool)
    (hidle : (reset.after f (t + 1)).protocol = .idle) (hready : (reset.after f (t + 1)).transferComplete = false) :
    ∃ k ≤ 24, (∀ u < k + 257, ((reset.after f (t + 1)).after (held d m chip) u).transferComplete = false) ∧
      ((reset.after f (t + 1)).after (held d m chip) (k + 257)).transferComplete = true ∧
      (∀ j < 16, ((reset.after f (t + 1)).after (held d m chip) (k + 257)).shiftregData.getMsbD j =
        onWire d m j (chip (k + 16 * j + 7))) ∧
      (reset.after f (t + 1)).edges (held d m chip) (k + 257) =
        (List.range 16).map (fun j => some (onWire d m j (chip (k + 16 * j + 3)))) ++ [none] := by
  obtain ⟨k, hk, z, hlast, elast, hbefore⟩ :=
    exchange d m chip (slow_phase f t) hidle hready
  refine ⟨k, hk, hbefore, by rw [hlast], fun j hj => ?_, elast.trans (by rw [bits, List.map_map]; rfl)⟩
  have hlen := bits_length d m chip k 7 16
  have hin := getMsbD_shifted_in (p := d) hlen.le (hlen.symm ▸ hj)
  simp only [hlen, Nat.sub_self, Nat.zero_add] at hin
  rw [hlast, hin]
  simp [bits]

theorem word_exchanged_first : ∃ k ≤ 24,
    (∀ u < k + 257, ((reset.after (fun _ => ⟨false, 0#16, 0#16, true⟩) 1).after
      (held 0xB200#16 0x00FF#16 fun t => t % 3 = 0) u).transferComplete = false) ∧
    ((reset.after (fun _ => ⟨false, 0#16, 0#16, true⟩) 1).after (held 0xB200#16 0x00FF#16 fun t => t % 3 = 0)
      (k + 257)).transferComplete = true ∧
    (∀ j < 16, ((reset.after (fun _ => ⟨false, 0#16, 0#16, true⟩) 1).after (held 0xB200#16 0x00FF#16 fun t => t % 3 = 0)
      (k + 257)).shiftregData.getMsbD j = onWire 0xB200#16 0x00FF#16 j (decide ((k + 16 * j + 7) % 3 = 0))) ∧
    (reset.after (fun _ => ⟨false, 0#16, 0#16, true⟩) 1).edges (held 0xB200#16 0x00FF#16 fun t => t % 3 = 0) (k + 257) =
      (List.range 16).map (fun j => some (onWire 0xB200#16 0x00FF#16 j (decide ((k + 16 * j + 3) % 3 = 0)))) ++
        [none] :=
  word_exchanged (fun _ => ⟨false, 0#16, 0#16, true⟩) 0 0xB200#16 0x00FF#16 (fun t => t % 3 = 0) rfl rfl

/-! ## Between two exchanges -/

theorem edge_of_high (i : BusIn) (htransfer : b.protocol ≠ .transfer) (hstart : b.protocol ≠ .startBit) :
    b.edge i = none := by
  simp [edge, serialClk, htransfer, hstart]

theorem clock_stop (i : BusIn) (hslow : b.slow = .phase n) (hstop : b.protocol = .stopBit) :
    (b.clock i).slow = .phase (n + 1#4) ∧ (b.clock i).protocol = (if n = 12#4 then .idle else .stopBit) ∧
      (b.clock i).transferComplete = true := by
  simp [clock, next, hslow, hstop]

theorem clock_unasked (i : BusIn) (hi : i.startTransfer = false) (hslow : b.slow = .phase n)
    (hidle : b.protocol = .idle) :
    (b.clock i).slow = .phase (n + 1#4) ∧ (b.clock i).protocol = .idle ∧ (b.clock i).transferComplete = false := by
  simp [clock, next, hslow, hidle, hi]

end

end SerialBus
end NuttyNios
